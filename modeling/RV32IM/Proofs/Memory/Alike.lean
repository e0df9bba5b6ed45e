import RV32IM.Proofs.Memory.Check

-- Address spaces whose regions are alike: they have the same bases, lengths and permissions, and
-- where the permissions meet a condition, the same bytes. Both what a program cannot change and
-- what it cannot see of memory are of this form.

namespace RV32IM

namespace Access

-- Permissions under which no program can change a byte.
def ReadOnly (a : Access) : Prop :=
  ¬a.allows write

instance (a : Access) : Decidable a.ReadOnly :=
  inferInstanceAs (Decidable ¬_)

-- Permissions under which a program can get to know a byte, by a load or by a fetch.
def Visible (a : Access) : Prop :=
  a.allows read ∨ a.allows execute

instance (a : Access) : Decidable a.Visible :=
  inferInstanceAs (Decidable (_ ∨ _))

end Access

-- Whether two regions differ at most in bytes that the condition leaves out.
structure Region.Alike (on : Access → Prop) (r r' : Region) : Prop where
  base   : r'.base = r.base
  access : r'.access = r.access
  size   : r'.bytes.size = r.bytes.size
  bytes  : on r.access → r'.bytes = r.bytes

namespace Region.Alike

variable {on : Access → Prop} {r r' r'' : Region} {addr : Word} {len : Nat}

theorem refl (on : Access → Prop) (r : Region) : r.Alike on r :=
  ⟨rfl, rfl, rfl, fun _ => rfl⟩

theorem trans (h : r.Alike on r') (h' : r'.Alike on r'') : r.Alike on r'' where
  base   := h'.base.trans h.base
  access := h'.access.trans h.access
  size   := h'.size.trans h.size
  bytes  := fun ha => (h'.bytes (h.access ▸ ha)).trans (h.bytes ha)

theorem symm (h : r.Alike on r') : r'.Alike on r where
  base   := h.base.symm
  access := h.access.symm
  size   := h.size.symm
  bytes  := fun ha => (h.bytes (h.access ▸ ha)).symm

theorem covers_iff (h : r.Alike on r') : r'.Covers addr len ↔ r.Covers addr len := by
  simp only [Covers, stop, h.base, h.size]

theorem read_eq (h : r.Alike on r') (ha : on r.access) : r'.read addr len = r.read addr len := by
  simp only [Region.read, offset, h.base, h.bytes ha]

theorem overwrite (h : r.Alike on r') (addr : Word) (bs : List Byte) :
    (r.overwrite addr bs).Alike on (r'.overwrite addr bs) where
  base   := h.base
  access := h.access
  size   := by simp [Region.overwrite, h.size]
  bytes ha := by simp only [Region.overwrite, offset, h.base, h.bytes ha]

theorem overwrite_of_not (ha : ¬on r.access) (addr : Word) (bs : List Byte) :
    r.Alike on (r.overwrite addr bs) where
  base   := rfl
  access := rfl
  size   := by simp [Region.overwrite]
  bytes ha' := absurd ha' ha

end Region.Alike

namespace AddressSpace

def Alike (on : Access → Prop) (s s' : AddressSpace) : Prop :=
  List.Forall₂ (fun e e' => e'.1 = e.1 ∧ e.2.Alike on e'.2) s.entries s'.entries

variable {on : Access → Prop} {s s' s'' : AddressSpace} {addr : Word} {len : Nat}
  {required : Access} {r : Region} {bs : List Byte}

namespace Alike

theorem refl (on : Access → Prop) (s : AddressSpace) : s.Alike on s :=
  List.forall₂_same.mpr fun e _ => ⟨rfl, .refl on e.2⟩

theorem trans (h : s.Alike on s') (h' : s'.Alike on s'') : s.Alike on s'' := by
  obtain ⟨es⟩ := s
  obtain ⟨es'⟩ := s'
  obtain ⟨es''⟩ := s''
  simp only [Alike] at *
  induction h generalizing es''
  case nil =>
    cases h'
    exact .nil
  case cons he _ ih =>
    cases h'
    case cons he' h' =>
      exact .cons ⟨he'.left.trans he.left, he.right.trans he'.right⟩ (ih _ h')

theorem symm (h : s.Alike on s') : s'.Alike on s :=
  List.Forall₂.flip (h.imp fun _ _ he => ⟨he.left.symm, he.right.symm⟩)

theorem regions (h : s.Alike on s') : List.Forall₂ (Region.Alike on) s.regions s'.regions := by
  rw [AddressSpace.regions, AddressSpace.regions, List.forall₂_map_left_iff,
    List.forall₂_map_right_iff]
  exact h.imp fun _ _ he => he.right

theorem keys_eq (h : s.Alike on s') : s'.keys = s.keys := by
  have hk : List.Forall₂ (fun e e' : Word × Region => e.1 = e'.1) s.entries s'.entries :=
    h.imp fun _ _ he => he.left.symm
  rw [keys, keys, eq_comm, ← List.forall₂_eq_eq_eq, List.forall₂_map_left_iff,
    List.forall₂_map_right_iff]
  exact hk

-- A write that was checked changes only regions that may be written.
theorem overwrite_of_check (h : s.check addr bs.length .write = .ok r) :
    s.Alike Access.ReadOnly (s.overwrite addr bs) := by
  have ⟨hl, _, ha⟩ := check_eq_ok_iff.mp h
  obtain ⟨es⟩ := s
  simp only [Alike, AddressSpace.overwrite]
  clear h
  induction es
  case nil => exact .nil
  case cons e es ih =>
    rw [lookup_cons] at hl
    unfold overwrite.go
    split
    case isTrue he =>
      cases (by simpa [he] using hl : e.2 = r)
      exact .cons ⟨rfl, .overwrite_of_not (not_not_intro ha) addr bs⟩ (refl _ ⟨es⟩)
    case isFalse he => exact .cons ⟨rfl, .refl _ e.2⟩ (ih (by simpa [he] using hl))

variable (h : s.Alike on s')

include h

theorem overwrite (addr : Word) (bs : List Byte) :
    (s.overwrite addr bs).Alike on (s'.overwrite addr bs) := by
  obtain ⟨es⟩ := s
  obtain ⟨es'⟩ := s'
  simp only [Alike, AddressSpace.overwrite] at *
  induction h
  case nil => exact .nil
  case cons he h ih =>
    unfold overwrite.go
    rw [he.left]
    split
    case isTrue  => exact .cons ⟨rfl, he.right.overwrite addr bs⟩ h
    case isFalse => exact .cons ⟨rfl, he.right⟩ ih

theorem lookup (addr : Word) :
    Option.Rel (Region.Alike on) (s.lookup addr) (s'.lookup addr) := by
  obtain ⟨es⟩ := s
  obtain ⟨es'⟩ := s'
  simp only [Alike] at h
  induction h
  case nil => exact .none
  case cons he _ ih =>
    rw [lookup_cons, lookup_cons, he.left]
    split
    case isTrue  => exact .some he.right
    case isFalse => exact ih

theorem locate? (addr : Word) (len : Nat) :
    Option.Rel (Region.Alike on) (s.locate? addr len) (s'.locate? addr len) := by
  have hl := h.lookup addr
  unfold AddressSpace.locate?
  generalize s.lookup addr = q at hl ⊢
  generalize s'.lookup addr = q' at hl ⊢
  cases hl
  case none => exact .none
  case some r r' hr =>
    by_cases hc : r.Covers addr len
    case pos => simpa [hr.covers_iff, hc] using hr
    case neg => simp [hr.covers_iff, hc]

-- A request is served by regions that are alike, or refused for one reason.
theorem check (addr : Word) (len : Nat) (required : Access) :
    (∃ r r', s.check addr len required = .ok r ∧ s'.check addr len required = .ok r' ∧
        r.Alike on r') ∨
      ∃ e, s.check addr len required = .error e ∧ s'.check addr len required = .error e := by
  have hl := h.locate? addr len
  unfold AddressSpace.check
  generalize s.locate? addr len = q at hl ⊢
  generalize s'.locate? addr len = q' at hl ⊢
  cases hl
  case none => exact .inr ⟨_, rfl, rfl⟩
  case some r r' hr =>
    simp only [hr.access]
    by_cases ha : r.access.allows required
    case pos => exact .inl ⟨r, r', if_pos ha, if_pos ha, hr⟩
    case neg => exact .inr ⟨_, if_neg ha, if_neg ha⟩

theorem checkBuffer (addr : Word) (len : Nat) (required : Access) :
    (∃ r r', s.checkBuffer addr len required = .ok r ∧ s'.checkBuffer addr len required = .ok r' ∧
        r.Alike on r') ∨
      ∃ e, s.checkBuffer addr len required = .error e ∧
        s'.checkBuffer addr len required = .error e := by
  unfold AddressSpace.checkBuffer
  obtain ⟨r, r', hs, hs', hr⟩ | ⟨e, hs, hs'⟩ := h.check addr (len % addressLimit) required
  case inr => exact .inr ⟨e, by rw [hs], by rw [hs']⟩
  case inl =>
    rw [hs, hs']
    by_cases hlen : len < addressLimit
    case pos => exact .inl ⟨r, r', if_pos hlen, if_pos hlen, hr⟩
    case neg => exact .inr ⟨_, if_neg hlen, if_neg hlen⟩

-- The same bytes are stored, or none are for the same reason.
theorem writeBytes (addr : Word) (bs : List Byte) :
    (Bus.writeBytes s addr bs = (.ok (), s.overwrite addr bs) ∧
        Bus.writeBytes s' addr bs = (.ok (), s'.overwrite addr bs)) ∨
      ∃ e, Bus.writeBytes s addr bs = (.error e, s) ∧
        Bus.writeBytes s' addr bs = (.error e, s') := by
  simp only [Bus.writeBytes, settleStore]
  obtain ⟨_, _, hs, hs', _⟩ | ⟨e, hs, hs'⟩ := h.checkBuffer addr bs.length .write
  case inl => exact .inl ⟨by rw [hs], by rw [hs']⟩
  case inr => exact .inr ⟨e, by rw [hs], by rw [hs']⟩

theorem read_eq (hon : ∀ a : Access, a.allows required → on a) (addr : Word) (len : Nat) :
    s'.read addr len required = s.read addr len required := by
  unfold AddressSpace.read
  obtain ⟨r, r', hs, hs', hr⟩ | ⟨e, hs, hs'⟩ := h.checkBuffer addr len required
  case inl =>
    have ⟨_, hc⟩ := checkBuffer_eq_ok_iff.mp hs
    have ha := hon _ (check_eq_ok_iff.mp hc).right.right
    simp only [hs, hs', Except.map, hr.read_eq ha]
  case inr => rw [hs, hs']

end Alike

namespace Alike

variable (h : s.Alike Access.Visible s')

include h

theorem load_eq (addr : Word) (len : Nat) : s'.load addr len = s.load addr len :=
  h.read_eq (fun _ => .inl) addr len

theorem readByte_eq (addr : Word) : Bus.readByte s' addr = Bus.readByte s addr := by
  simp only [Bus.readByte, h.load_eq]

theorem readBytes_eq (addr : Word) (n : Nat) : Bus.readBytes s' addr n = Bus.readBytes s addr n :=
  h.load_eq addr n

theorem fetch_eq (addr : Word) : s'.fetch addr = s.fetch addr := by
  rw [fetch, fetch, h.read_eq (fun _ => .inr) addr 4]

end Alike

end AddressSpace

end RV32IM
