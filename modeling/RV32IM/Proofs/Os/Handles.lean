import Mathlib
import RV32IM.Os

-- The table of handles. A slot keeps its number and what it stands for until it is closed, a closed
-- slot stays closed, and new handles come at the end.

namespace RV32IM.Os

section Slots

variable {η : Type} (σ : Type) [HostInterface η σ]

-- What a request to the host makes of a handle.
inductive Uses : η → η → Prop
  | read (host : σ) (h : η) (n : Nat) : Uses h (HostInterface.read host h n).2.1
  | write (host : σ) (h : η) (bs : List Byte) : Uses h (HostInterface.write host h bs).2.1

-- How a slot may go on. It is closed, or stands for what it stood for before.
inductive Continues : Option η → Option η → Prop
  | closed {o : Option η} : Continues o none
  | used {h h' : η} (hu : Relation.ReflTransGen (Uses σ) h h') : Continues (some h) (some h')

variable {σ} {o o' o'' : Option η}

theorem continues_refl : (o : Option η) → Continues σ o o
  | none   => .closed
  | some _ => .used .refl

theorem Continues.trans (h : Continues σ o o') (h' : Continues σ o' o'') : Continues σ o o'' := by
  cases h'
  case closed => exact .closed
  case used h' =>
    cases h
    case used h => exact .used (h.trans h')

end Slots

variable {η σ : Type}

-- Whether a number is no handle: it is negative, past the table, or its slot is closed.
def Lacks (os : Os η σ) (number : Word) : Prop :=
  number.toInt < 0 ∨ os.handles.size ≤ number.toNat ∨ os.handles[number.toNat]? = some none

-- What closing a slot leaves.
def without (os : Os η σ) (slot : Nat) : Os η σ :=
  { os with handles := os.handles.setIfInBounds slot none }

section Lookup

variable {os : Os η σ} {number : Word}

theorem slot?_eq_none (h : os.Lacks number) : os.slot? number = none := by
  unfold slot?
  split
  case isTrue => rfl
  case isFalse hmsb =>
    rw [BitVec.msb_eq_toInt, decide_eq_true_eq] at hmsb
    rcases h with h | h | h
    · exact absurd h hmsb
    · rw [Array.getElem?_eq_none h]
      rfl
    · rw [h]
      rfl

theorem not_lacks_of_isOpen (h : os.isOpen number) : ¬os.Lacks number := by
  intro hl
  rw [isOpen, slot?_eq_none hl] at h
  cases h

theorem exists_of_not_lacks (h : ¬os.Lacks number) :
    ∃ x, os.handles[number.toNat]? = some (some x) ∧
      os.slot? number = some (number.toNat, x) := by
  unfold Lacks at h
  push Not at h
  obtain ⟨hint, hsize, hopen⟩ := h
  have hmsb : ¬number.msb := by
    rw [BitVec.msb_eq_toInt, decide_eq_true_eq]
    exact not_lt_of_ge hint
  rw [Array.getElem?_eq_getElem hsize] at hopen ⊢
  obtain ⟨x, hx⟩ := Option.ne_none_iff_exists'.mp fun h => hopen (congrArg some h)
  refine ⟨x, congrArg some hx, ?_⟩
  rw [slot?, if_neg hmsb, Array.getElem?_eq_getElem hsize, hx]
  rfl

end Lookup

variable [HostInterface η σ]

-- How a table may go on.
structure Later (os os' : Os η σ) : Prop where
  size : os.handles.size ≤ os'.handles.size
  slot (i : Nat) (o : Option η) : os.handles[i]? = some o →
    ∃ o', os'.handles[i]? = some o' ∧ Continues σ o o'

-- What is left of a table where requests to the host went through one open slot.
structure Transfers (slot : Nat) (os os' : Os η σ) : Prop where
  size  : os'.handles.size = os.handles.size
  other (i : Nat) : i ≠ slot → os'.handles[i]? = os.handles[i]?
  slot  : ∃ h h' : η, os.handles[slot]? = some (some h) ∧ os'.handles[slot]? = some (some h') ∧
    Relation.ReflTransGen (Uses σ) h h'

variable {os os' os'' : Os η σ} {slot : Nat} {x : η}

namespace Later

theorem refl (os : Os η σ) : os.Later os :=
  ⟨le_rfl, fun _ o ho => ⟨o, ho, continues_refl o⟩⟩

theorem trans (h : os.Later os') (h' : os'.Later os'') : os.Later os'' where
  size := h.size.trans h'.size
  slot i o ho := by
    have ⟨o', ho', hc⟩ := h.slot i o ho
    have ⟨o'', ho'', hc'⟩ := h'.slot i o' ho'
    exact ⟨o'', ho'', hc.trans hc'⟩

-- A closed slot is never open again.
theorem closed (h : os.Later os') {i : Nat} (hi : os.handles[i]? = some none) :
    os'.handles[i]? = some none := by
  have ⟨o', ho', hc⟩ := h.slot i none hi
  cases hc
  exact ho'

end Later

section Standard

variable {host : Host} {os : Os Handle Host} {i : Nat} {o : Option Handle}

theorem eq_of_uses {h h' : Handle} (hh : h = .stdin ∨ h = .stdout ∨ h = .stderr)
    (hu : Uses Host h h') : h' = h := by
  cases hu
  case read => rcases hh with rfl | rfl | rfl <;> rfl
  case write _ bs =>
    rcases hh with rfl | rfl | rfl
    all_goals simp only [HostInterface.write, Host.write?]
    all_goals cases Sink.write? _ bs <;> rfl

-- Requests make nothing else of a standard stream.
theorem eq_of_uses_each {h h' : Handle} (hh : h = .stdin ∨ h = .stdout ∨ h = .stderr)
    (hu : Relation.ReflTransGen (Uses Host) h h') : h' = h := by
  induction hu
  case refl => rfl
  case tail hu ih =>
    subst ih
    exact eq_of_uses hh hu

theorem eq_of_start (hi : (start host).handles[i]? = some o) :
    o = some .stdin ∨ o = some .stdout ∨ o = some .stderr := by
  match i with
  | 0 => exact .inl (Option.some.inj hi).symm
  | 1 => exact .inr (.inl (Option.some.inj hi).symm)
  | 2 => exact .inr (.inr (Option.some.inj hi).symm)
  | _ + 3 => cases hi

-- A standard stream keeps its number until it is closed.
theorem Later.of_start (h : (start host).Later os) (hi : (start host).handles[i]? = some o) :
    os.handles[i]? = some none ∨ os.handles[i]? = some o := by
  have ⟨o', ho', hc⟩ := h.slot i o hi
  cases hc
  case closed => exact .inl ho'
  case used h h' hu =>
    have hh : h = .stdin ∨ h = .stdout ∨ h = .stderr := by simpa using eq_of_start hi
    exact .inr (eq_of_uses_each hh hu ▸ ho')

end Standard

theorem later_of_handles_eq (h : os'.handles = os.handles) : os.Later os' where
  size := by rw [h]
  slot _ o ho := ⟨o, h ▸ ho, continues_refl o⟩

theorem later_of_push {o : Option η} (h : os'.handles = os.handles.push o) : os.Later os' where
  size := by simp [h]
  slot i o ho := by
    have hi : i < os.handles.size := (Array.getElem?_eq_some_iff.mp ho).1
    rw [h, Array.getElem?_push_lt hi, ← Array.getElem?_eq_getElem hi, ho]
    exact ⟨o, rfl, continues_refl o⟩

theorem later_without (os : Os η σ) (slot : Nat) : os.Later (os.without slot) where
  size := by simp [without]
  slot i o ho := by
    by_cases hi : slot = i
    case pos => exact ⟨none, by simp [without, hi, (Array.getElem?_eq_some_iff.mp ho).1], .closed⟩
    case neg => exact ⟨o, by simpa [without, hi] using ho, continues_refl o⟩

namespace Transfers

theorem refl (h : os.handles[slot]? = some (some x)) : Transfers slot os os :=
  ⟨rfl, fun _ _ => rfl, x, x, h, h, .refl⟩

theorem trans (h : Transfers slot os os') (h' : Transfers slot os' os'') :
    Transfers slot os os'' where
  size := h'.size.trans h.size
  other i hi := (h'.other i hi).trans (h.other i hi)
  slot := by
    obtain ⟨x, x', hx, hx', hu⟩ := h.slot
    obtain ⟨y, y', hy, hy', hu'⟩ := h'.slot
    obtain rfl : x' = y := by simpa [hx'] using hy
    exact ⟨x, y', hx, hy', hu.trans hu'⟩

theorem later (h : Transfers slot os os') : os.Later os' where
  size := h.size.ge
  slot i o ho := by
    by_cases hi : i = slot
    case pos =>
      subst hi
      obtain ⟨x, x', hx, hx', hu⟩ := h.slot
      obtain rfl : some x = o := by simpa [hx] using ho
      exact ⟨some x', hx', .used hu⟩
    case neg => exact ⟨o, (h.other i hi).trans ho, continues_refl o⟩

end Transfers

-- A request to the host replaces the handle in its slot.
theorem transfers_update {x' : η} (h : os.handles[slot]? = some (some x)) (hu : Uses σ x x')
    (host : σ) : Transfers slot os (os.update slot x' host) where
  size := by simp [update]
  other i hi := by simp [update, hi.symm]
  slot := ⟨x, x', h, by simp [update, (Array.getElem?_eq_some_iff.mp h).1], .single hu⟩

theorem transfers_put (h : os.handles[slot]? = some (some x)) (bs : List Byte) :
    Transfers slot os (os.put slot bs).2 := by
  simp only [put, h, Option.join]
  exact transfers_update h (.write os.host x bs) _

variable {β : Type} [Bus β]

theorem transfers_writeFrom (h : os.handles[slot]? = some (some x)) (bus : β) (addr : Word)
    (done left : Nat) : Transfers slot os (os.writeFrom bus slot addr done left).2 := by
  fun_induction os.writeFrom bus slot addr done left generalizing x
  case case1 => exact .refl h
  case case2 => exact .refl h
  case case3 bs _ _ hp =>
    have hput := transfers_put h bs
    rwa [hp] at hput
  case case4 bs _ _ hp ih =>
    have hput := transfers_put h bs
    rw [hp] at hput
    have ⟨_, _, _, hopen, _⟩ := hput.slot
    exact hput.trans (ih hopen)

theorem transfers_write {number : Word} (h : ¬os.Lacks number) (bus : β) (addr : Word)
    (len : Nat) : Transfers number.toNat os (os.write bus number addr len).2 := by
  obtain ⟨x, hx, hslot⟩ := exists_of_not_lacks h
  simp only [write, hslot]
  exact transfers_writeFrom hx ..

theorem transfers_read {number : Word} (h : ¬os.Lacks number) (bus : β) (addr : Word)
    (len : Nat) : Transfers number.toNat os (os.read bus number addr len).2.2 := by
  obtain ⟨x, hx, hslot⟩ := exists_of_not_lacks h
  have hu := transfers_update hx (.read os.host x (min len chunkSize))
  simp only [read, hslot]
  split
  case h_1 => exact hu _
  case h_2 => exact hu _
  case h_3 => split <;> exact hu _

-- Opening a file gives a new slot at the end of the table, or it changes no slot.
theorem openFile_cases (os : Os η σ) (bus : β) (addr flags : Word) :
    (∃ h host, os.openFile bus addr flags =
        (.ok (.ofNat 32 os.handles.size), ⟨os.handles.push (some h), host⟩)) ∨
      ∃ r host, os.openFile bus addr flags = (r, ⟨os.handles, host⟩) ∧
        (r = .ok (-1) ∨ ∃ e, r = .error e) := by
  unfold openFile
  split
  case h_1 => exact .inr ⟨_, _, rfl, .inl rfl⟩
  case h_2 =>
  split
  case h_1 => exact .inr ⟨_, _, rfl, .inr ⟨_, rfl⟩⟩
  case h_2 => exact .inr ⟨_, _, rfl, .inl rfl⟩
  case h_3 =>
  split
  case h_1 => exact .inr ⟨_, _, rfl, .inl rfl⟩
  case h_2 =>
  split
  case h_1 => exact .inr ⟨_, _, rfl, .inl rfl⟩
  case h_2 => exact .inl ⟨_, _, rfl⟩

end RV32IM.Os
