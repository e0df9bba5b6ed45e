import RV32IM.Proofs.Link.Exact
import RV32IM.Proofs.Session.Shift

-- Linking at two bases. A displacement is the same at both, so the two images differ in the words
-- that hold addresses and nowhere else.

namespace RV32IM

variable {δ : Word}

namespace Relocation

variable {symbols symbols' : SymbolTable} {relocs : Array Relocation} {address v : Word}

theorem hiAt?_shift (relocs : Array Relocation) (address : Word) :
    hiAt? (relocs.map (shift δ)) (address + δ) = (hiAt? relocs address).map (shift δ) := by
  have h (r : Relocation) : ((r.shift δ).kind = .hi && (r.shift δ).site = address + δ) =
      (r.kind = .hi && r.site = address) := by
    rw [Bool.eq_iff_iff]
    simp only [Bool.and_eq_true, decide_eq_true_eq]
    simp only [shift, add_left_inj]
  simp only [hiAt?, Array.findRev?_eq_find?_reverse, ← Array.find?_toList, Array.toList_reverse,
    Array.toList_map, ← List.map_reverse, List.find?_map, Function.comp_def, h]

-- Only what is an address sees the base.
theorem value_shift (h : symbols.Shifted δ symbols') {r : Relocation}
    (hv : r.value symbols relocs = .ok v) :
    (r.shift δ).value symbols' (relocs.map (shift δ)) =
      .ok (if r.kind = .word then v + δ else v) := by
  have shifted {name : String} {address : Word} (ha : symbols.address? name = some address) :
      symbols'.address? name = some (address + δ) := by
    rw [h.address?_eq, ha, Option.map_some]
  obtain ⟨site, kind, target⟩ := r
  have displacement (hk : kind = .jump ∨ kind = .branch) :
      value ⟨site + δ, kind, target⟩ symbols' (relocs.map (shift δ)) = .ok v := by
    obtain ⟨hd, hr⟩ := value_displacement hk hv
    obtain ⟨address, ha, rfl⟩ := Option.map_eq_some_iff.mp hd
    rw [← add_sub_add_right_eq_sub address site δ] at hr ⊢
    exact value_displacement_eq_ok hk (shifted ha) hr
  cases kind
  case jump => exact displacement (.inl rfl)
  case branch => exact displacement (.inr rfl)
  case word => exact value_word_eq_ok (shifted (value_word hv))
  case hi =>
    obtain ⟨address, ha, rfl⟩ := Option.map_eq_some_iff.mp (value_hi hv)
    rw [← add_sub_add_right_eq_sub address site δ]
    exact value_hi_eq_ok (shifted ha)
  case lo =>
    obtain ⟨anchor, hi, address, ha, hhi, hr, rfl⟩ := value_lo hv
    have hhi' : hiAt? (relocs.map (shift δ)) (anchor + δ) = some (hi.shift δ) := by
      rw [hiAt?_shift, hhi, Option.map_some]
    rw [← add_sub_add_right_eq_sub address anchor δ]
    exact value_lo_eq_ok (shifted ha) hhi' (shifted hr)

end Relocation

-- What an object is linked to at its base and at another one.
structure Object.Relinked (o : Object) (δ : Word) (l l' : Linked) : Prop where
  size      : l'.image.length = l.image.length
  addresses : ∀ r ∈ o.relocations, r.kind = .word → (r.site - o.base).toNat + 4 ≤ l.image.length ∧
    Word.atOffset l'.image (r.site - o.base).toNat =
      Word.atOffset l.image (r.site - o.base).toNat + δ
  elsewhere : ∀ n, (∀ r ∈ o.relocations, r.kind = .word →
    n < (r.site - o.base).toNat ∨ (r.site - o.base).toNat + 4 ≤ n) → l'.image[n]? = l.image[n]?

namespace Fragment

variable {symbols symbols' : SymbolTable} {relocs : Array Relocation} {site : Word} {f : Fragment}

theorem relocations_shift (site : Word) (fs : List Fragment) :
    relocations (site + δ) fs = (relocations site fs).map (Relocation.shift δ) := by
  induction fs generalizing site
  case nil => rfl
  case cons f fs ih =>
    have h : f.after (site + δ) = f.after site + δ := add_right_comm ..
    rw [relocations_cons, relocations_cons site, List.map_append, h, ih]
    cases f <;> rfl

-- A fragment that holds no address is linked to the same bytes.
theorem linked_shift (h : symbols.Shifted δ symbols')
    (hf : ∀ kind target w, f = pending kind target w →
      kind ≠ .word ∧ ∃ v, Relocation.value ⟨site, kind, target⟩ symbols relocs = .ok v) :
    f.linked symbols' (relocs.map (Relocation.shift δ)) (site + δ) =
      f.linked symbols relocs site := by
  cases f
  case fixed => rfl
  case pending kind target w =>
    obtain ⟨hk, v, hv⟩ := hf kind target w rfl
    have hv' := Relocation.value_shift h hv
    rw [if_neg hk] at hv'
    rw [linked_of_value hv, linked_of_value hv']

end Fragment

namespace Object

variable {o o' : Object} {cfg cfg' : LinkConfig} {l l' : Linked} {fs : List Fragment}

theorem Shifted.emits (h : o.Shifted δ o') (ho : o.Emits fs) : o'.Emits fs where
  image := by rw [h.image, ho.image]
  relocations := by
    rw [h.relocations, Array.toList_map, ho.relocations, h.base, Fragment.relocations_shift]

theorem aligned_of_link (h : o.link cfg = .ok l) : o.base.toNat % pageSize = 0 := by
  have ⟨_, hplace, _⟩ := exists_of_map_eq_ok h
  obtain ⟨_, _, hp⟩ := exists_placed hplace
  exact (AddressSpace.free_of_allocate hp.allocate).aligned

theorem exists_value_of_clean (ho : o.Emits fs) (hl : o.link cfg = .ok l) (hc : l.clean)
    {r : Relocation} (hr : r ∈ o.relocations) : ∃ v, r.value o.symbols o.relocations = .ok v := by
  have ⟨_, _, hclean⟩ := link_eq_ok ho hl
  have hf := (hclean.mp hc).right
  rw [Fragment.allFaults_eq, ← ho.relocations, List.filterMap_eq_nil_iff] at hf
  have hr := hf r (Array.mem_toList_iff.mpr hr)
  unfold Relocation.fault? at hr
  split at hr
  case h_1 v hv => exact ⟨v, hv⟩
  case h_2 => cases hr

-- An object that is linked without a complaint is linked to the same image at another base, but for
-- the words that hold addresses.
theorem shifted_link (h : o.Shifted δ o') (ho : o.Emits fs) (hl : o.link cfg = .ok l)
    (hc : l.clean) (hl' : o'.link cfg' = .ok l') : o.Relinked δ l l' := by
  have hlen := Nat.le_of_add_left_le (fits_of_link ho hl)
  obtain ⟨himage, _⟩ := link_eq_ok ho hl
  obtain ⟨himage', _⟩ := link_eq_ok (h.emits ho) hl'
  rw [h.relocations, h.base] at himage'
  have hmem {r : Relocation} : r ∈ o.relocations ↔ r ∈ Fragment.relocations o.base fs := by
    rw [← ho.relocations, Array.mem_toList_iff]
  constructor
  case size => rw [himage, himage', Fragment.length_linkedImage, Fragment.length_linkedImage]
  case addresses =>
    intro r hr hk
    obtain ⟨v, hv⟩ := exists_value_of_clean ho hl hc hr
    have hv' := Relocation.value_shift h.symbols hv
    rw [if_pos hk] at hv'
    obtain ⟨gs, w, hs, rfl, hsite⟩ := Fragment.mem_relocations_iff.mp (hmem.mp hr)
    obtain ⟨site, kind, target⟩ := r
    cases hk
    obtain rfl : site = o.base + BitVec.ofNat 32 (Fragment.image gs).length := hsite
    obtain ⟨hn, hle⟩ := Fragment.offset_eq o.base hlen
    have hf := Fragment.linked_of_value (w := w) hv
    have hf' := Fragment.linked_of_value (w := w) hv'
    rw [add_right_comm] at hf'
    rw [himage, himage', hn, Fragment.length_linkedImage, Fragment.atOffset_linkedImage hf,
      Fragment.atOffset_linkedImage hf']
    exact ⟨hle, rfl⟩
  case elsewhere =>
    intro n hn
    rw [himage, himage']
    by_cases hlt : n < (Fragment.image fs).length
    case neg =>
      have hle := Nat.le_of_not_lt hlt
      rw [List.getElem?_eq_none, List.getElem?_eq_none]
      all_goals rwa [Fragment.length_linkedImage]
    case pos =>
      obtain ⟨gs, f, hs, rfl, hle, hlt⟩ := Fragment.exists_fragment hlt
      rw [Fragment.getElem?_linkedImage_append hle hlt,
        Fragment.getElem?_linkedImage_append hle hlt, add_right_comm,
        Fragment.linked_shift h.symbols]
      rintro kind target w rfl
      have hr : ⟨o.base + BitVec.ofNat 32 (Fragment.image gs).length, kind, target⟩ ∈
          o.relocations :=
        hmem.mpr (Fragment.mem_relocations_iff.mpr ⟨gs, w, hs, rfl, rfl⟩)
      refine ⟨fun hk => ?_, exists_value_of_clean ho hl hc hr⟩
      have hn := hn _ hr hk
      rw [(Fragment.offset_eq o.base hlen).left] at hn
      rw [Fragment.bytes, Word.length_toBytes] at hlt
      omega

end Object

end RV32IM
