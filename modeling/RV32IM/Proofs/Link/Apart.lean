import RV32IM.Proofs.Link.Confinement
import RV32IM.Proofs.Link.Fault

-- Relocations whose sites are apart. No such relocation sees what another one has written, so a
-- pass over a list of them replaces each word as if it were alone, whatever their order.

namespace RV32IM

namespace Relocation

-- The word that linking leaves in place of `w`. It is `w` if the relocation has a fault.
def settle (symbols : SymbolTable) (relocs : Array Relocation) (r : Relocation) (w : Word) : Word :=
  match r.value symbols relocs with
  | .ok v => fill w v r.kind
  | .error _ => w

end Relocation

namespace Linked

variable {l l' l'' : Linked} {relocs : Array Relocation} {r : Relocation} {rs : List Relocation}

-- What is reported of a relocation, if anything.
def complaint? (relocs : Array Relocation) (l : Linked) (r : Relocation) : Option Diagnostic :=
  match l.space.peekWord r.site with
  | .error _ => some (.badSite r.site)
  | .ok _ => r.fault? l.symbols relocs

-- Whether each word at the site of one of the relocations has been replaced, and nothing else.
structure Relocated (relocs : Array Relocation) (rs : List Relocation) (l l' : Linked) : Prop where
  keeps       : l.Keeps l'
  alike       : l.space.Alike (fun _ => False) l'.space
  diagnostics : l'.diagnostics.toList = l.diagnostics.toList ++ rs.filterMap (l.complaint? relocs)
  sites       : ∀ r ∈ rs, ∀ w, l.space.peekWord r.site = .ok w → ∀ a, a.Within r.site 4 →
    l'.space.byte? a = (r.settle l.symbols relocs w).toBytes[a.toNat - r.site.toNat]?
  rest        : ∀ a, (∀ r ∈ rs, l.space.Mapped r.site 4 → ¬a.Within r.site 4) →
    l'.space.byte? a = l.space.byte? a

-- Whether a relocation can be applied depends on where the regions are.
theorem complaint?_eq (hs : l.space.WellFormed) (hsym : l'.symbols = l.symbols)
    (h : l.space.Alike (fun _ => False) l'.space) : l'.complaint? relocs = l.complaint? relocs := by
  funext r
  unfold complaint?
  by_cases hm : l.space.Mapped r.site 4
  case neg =>
    rw [AddressSpace.peekWord_of_not_mapped hm,
      AddressSpace.peekWord_of_not_mapped (mt h.mapped_iff.mp hm)]
  case pos =>
    have ⟨_, hw, _⟩ := AddressSpace.exists_peekWord hs hm
    have ⟨_, hw', _⟩ := AddressSpace.exists_peekWord (hs.alike h) (h.mapped_iff.mpr hm)
    rw [hw, hw', hsym]

theorem diagnostics_relocate (relocs : Array Relocation) (l : Linked) (r : Relocation) :
    (l.relocate relocs r).diagnostics.toList =
      l.diagnostics.toList ++ [r].filterMap (l.complaint? relocs) := by
  simp only [relocate, List.filterMap, complaint?, Relocation.patch, Relocation.fault?]
  cases l.space.peekWord r.site
  case error => exact Array.toList_push ..
  case ok w =>
    simp only
    cases r.value l.symbols relocs
    case error => exact Array.toList_push ..
    case ok => exact (List.append_nil _).symm

theorem byte?_relocate (hs : l.space.WellFormed) {w : Word} (hw : l.space.peekWord r.site = .ok w)
    {a : Word} (ha : a.Within r.site 4) :
    (l.relocate relocs r).space.byte? a =
      (r.settle l.symbols relocs w).toBytes[a.toNat - r.site.toNat]? := by
  simp only [relocate, hw, Relocation.patch, Relocation.settle]
  cases r.value l.symbols relocs
  case error => exact AddressSpace.byte?_of_peekWord hs hw ha
  case ok v =>
    obtain ⟨_, hc⟩ := AddressSpace.exists_check hs (AddressSpace.mapped_of_peekWord hw) (by decide)
    rw [← Word.length_toBytes (Relocation.fill w v r.kind)] at hc
    exact (AddressSpace.byte?_overwrite hs hc a).trans (if_pos (by rwa [Word.length_toBytes]))

theorem relocated_relocate (hs : l.space.WellFormed) :
    Relocated relocs [r] l (l.relocate relocs r) := by
  have hp : Patched [r] l (l.relocate relocs r) := patched_relocate hs
  refine ⟨keeps_relocate relocs l r, hp.alike, diagnostics_relocate relocs l r, ?_, hp.bytes⟩
  intro q hq w hw a ha
  cases List.mem_singleton.mp hq
  exact byte?_relocate hs hw ha

-- A word is not changed by a relocation that is apart from it.
theorem Relocated.peekWord_eq (h : Relocated relocs rs l l') (hs : l.space.WellFormed)
    (hr : ∀ q ∈ rs, r.Apart q) : l'.space.peekWord r.site = l.space.peekWord r.site :=
  AddressSpace.peekWord_congr hs h.alike fun a ha =>
    h.rest a fun q hq _ => (hr q hq).not_within ha

theorem Relocated.trans {rs' : List Relocation} (hs : l.space.WellFormed)
    (h : Relocated relocs rs l l') (h' : Relocated relocs rs' l' l'')
    (ha : ∀ r ∈ rs, ∀ q ∈ rs', r.Apart q) : Relocated relocs (rs ++ rs') l l'' where
  keeps := h.keeps.trans h'.keeps
  alike := h.alike.trans h'.alike
  diagnostics := by
    rw [h'.diagnostics, h.diagnostics, complaint?_eq hs h.keeps.symbols h.alike,
      List.filterMap_append, List.append_assoc]
  sites r hr w hw a hwithin := by
    rcases List.mem_append.mp hr with hr | hr
    case inl =>
      rw [h'.rest a fun q hq _ => (ha r hr q hq).not_within hwithin, h.sites r hr w hw a hwithin]
    case inr =>
      rw [← h.peekWord_eq hs fun q hq => (ha q hq r hr).symm] at hw
      rw [h'.sites r hr w hw a hwithin, h.keeps.symbols]
  rest a hrest := by
    have ⟨hrs, hrs'⟩ := List.forall_mem_append.mp hrest
    rw [h'.rest a fun q hq hm => hrs' q hq (h.alike.mapped_iff.mp hm), h.rest a hrs]

-- A pass over relocations that are apart replaces each word on its own.
theorem relocated_foldl (hs : l.space.WellFormed) (h : rs.Pairwise Relocation.Apart) :
    Relocated relocs rs l (rs.foldl (relocate relocs) l) := by
  induction h generalizing l
  case nil => exact ⟨⟨rfl, rfl, rfl⟩, .refl _ _, (List.append_nil _).symm, nofun, fun _ _ => rfl⟩
  case cons r rs hr _ ih =>
    have hstep : Relocated relocs [r] l (l.relocate relocs r) := relocated_relocate hs
    exact hstep.trans hs (ih (hs.alike hstep.alike)) (List.forall_mem_singleton.mpr hr)

end Linked

end RV32IM
