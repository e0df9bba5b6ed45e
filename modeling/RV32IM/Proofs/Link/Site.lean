import RV32IM.Proofs.Link.Relocation
import RV32IM.Proofs.Memory.Bytes

-- Sites of relocations. The words of an image that fits the address space have no byte in common,
-- so at most one upper part is recorded at an anchor.

namespace RV32IM

namespace Relocation

-- Whether the words at the sites of two relocations have no byte in common.
def Apart (r q : Relocation) : Prop :=
  r.site.toNat + 4 ≤ q.site.toNat ∨ q.site.toNat + 4 ≤ r.site.toNat

instance : DecidableRel Apart :=
  fun _ _ => inferInstanceAs (Decidable (_ ∨ _))

variable {r q : Relocation}

theorem Apart.symm (h : r.Apart q) : q.Apart r :=
  Or.symm h

theorem Apart.site_ne (h : r.Apart q) : r.site ≠ q.site := by
  intro he
  simp only [Apart, he] at h
  omega

theorem Apart.not_within {a : Word} (h : r.Apart q) (ha : a.Within r.site 4) :
    ¬a.Within q.site 4 := by
  simp only [Apart, Word.Within, BitVec.le_def] at *
  omega

end Relocation

namespace Fragment

variable {site : Word} {fs : List Fragment}

-- A relocation is that of a word that waits, at the address where the word is.
theorem mem_relocations_iff {r : Relocation} :
    r ∈ relocations site fs ↔
      ∃ gs w hs, fs = gs ++ pending r.kind r.target w :: hs ∧
        r.site = site + BitVec.ofNat 32 (image gs).length := by
  constructor
  case mp =>
    intro h
    induction fs generalizing site
    case nil => cases h
    case cons f fs ih =>
      rw [relocations_cons, List.mem_append] at h
      cases h
      case inl h =>
        cases f
        case fixed => cases h
        case pending kind target w =>
          cases List.mem_singleton.mp h
          exact ⟨[], w, fs, rfl, (BitVec.add_zero _).symm⟩
      case inr h =>
        obtain ⟨gs, w, hs, rfl, hr⟩ := ih h
        exact ⟨f :: gs, w, hs, rfl, by rw [hr, after_add]⟩
  case mpr =>
    rintro ⟨gs, w, hs, rfl, hr⟩
    rw [relocations_append, List.mem_append, ← hr]
    exact .inr List.mem_cons_self

theorem site_of_mem_relocations {r : Relocation} (h : r ∈ relocations site fs) :
    ∃ n, r.site = site + BitVec.ofNat 32 n ∧ n + 4 ≤ (image fs).length := by
  obtain ⟨gs, w, hs, rfl, hr⟩ := mem_relocations_iff.mp h
  exact ⟨_, hr, by simp [bytes]⟩

-- What a session records is apart, as long as the image does not run past the end of memory.
theorem pairwise_apart (h : site.toNat + (image fs).length ≤ addressLimit) :
    (relocations site fs).Pairwise Relocation.Apart := by
  induction fs generalizing site
  case nil => exact .nil
  case cons f fs ih =>
    rw [image_cons, List.length_append] at h
    have hafter : (after site f).toNat ≤ site.toNat + f.bytes.length := by
      rw [after, BitVec.toNat_add, BitVec.toNat_ofNat]
      omega
    have hfs : (relocations (after site f) fs).Pairwise Relocation.Apart := ih (by omega)
    cases f
    case fixed => exact hfs
    case pending kind target w =>
      refine .cons (fun r hr => .inl ?_) hfs
      obtain ⟨n, hn, hle⟩ := site_of_mem_relocations hr
      simp only [bytes, Word.length_toBytes] at h
      have hsite : r.site = site + BitVec.ofNat 32 (4 + n) := by
        rw [hn, after, BitVec.ofNat_add, BitVec.add_assoc]
        rfl
      rw [hsite, Word.toNat_add_ofNat (by omega)]
      simp only
      omega

end Fragment

theorem Object.pairwise_relocations {o : Object} {cfg : LinkConfig} {l : Linked}
    {fs : List Fragment} (ho : o.Emits fs) (h : o.link cfg = .ok l) :
    o.relocations.toList.Pairwise fun r q => r.site ≠ q.site := by
  rw [ho.relocations]
  exact (Fragment.pairwise_apart (fits_of_link ho h)).imp Relocation.Apart.site_ne

namespace Relocation

variable {relocs : Array Relocation} {address : Word} {r : Relocation}

theorem find?_hi_eq_some_iff {l : List Relocation} (h : l.Pairwise fun r q => r.site ≠ q.site) :
    l.find? (fun r => r.kind = .hi && r.site = address) = some r ↔
      r ∈ l ∧ r.kind = .hi ∧ r.site = address := by
  constructor
  case mp =>
    intro hr
    exact ⟨List.mem_of_find?_eq_some hr, by simpa using List.find?_some hr⟩
  case mpr =>
    intro ⟨hr, hp⟩
    induction h
    case nil => cases hr
    case cons q l hq _ ih =>
      rw [List.find?_cons]
      split
      case h_1 hq' =>
        simp only [Bool.and_eq_true, decide_eq_true_eq] at hq'
        cases hr
        case head => rfl
        case tail hr => exact absurd (hq'.right.trans hp.right.symm) (hq r hr)
      case h_2 hq' =>
        cases hr
        case head => simp [hp] at hq'
        case tail hr => exact ih hr

theorem hiAt?_eq_some_iff (h : relocs.toList.Pairwise fun r q => r.site ≠ q.site) :
    hiAt? relocs address = some r ↔ r ∈ relocs.toList ∧ r.kind = .hi ∧ r.site = address := by
  have hr : relocs.toList.reverse.Pairwise fun r q => r.site ≠ q.site :=
    List.pairwise_reverse.mpr (h.imp Ne.symm)
  rw [← List.mem_reverse, ← find?_hi_eq_some_iff hr, hiAt?, Array.findRev?_eq_find?_reverse,
    ← Array.find?_toList, Array.toList_reverse]

-- The upper part at an anchor is found in whatever order the relocations were recorded.
theorem hiAt?_perm {relocs' : Array Relocation} (hp : relocs'.toList.Perm relocs.toList)
    (h : relocs.toList.Pairwise fun r q => r.site ≠ q.site) : hiAt? relocs' = hiAt? relocs := by
  funext address
  ext r
  rw [hiAt?_eq_some_iff h, hiAt?_eq_some_iff ((hp.pairwise_iff Ne.symm).mpr h), hp.mem_iff]

end Relocation

end RV32IM
