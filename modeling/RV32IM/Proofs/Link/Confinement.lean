import RV32IM.Proofs.Link.Relocation
import RV32IM.Proofs.Link.Value
import RV32IM.Proofs.Memory.Bytes

-- What linking can touch. A relocation is refused as outside the image exactly where no region of
-- memory holds its word. The image and the stack are mapped in whole pages, so a word past the end
-- of the image is patched like any other if it is in one of those.

namespace RV32IM

namespace Relocation

variable {symbols : SymbolTable} {relocs : Array Relocation} {d : Diagnostic} {site : Word}

theorem resolve_ne_badSite {name : String} {site' : Word}
    (h : resolve symbols name site' = .error d) : d ≠ .badSite site := by
  unfold resolve at h
  split at h
  case h_1 => cases h
  case h_2 =>
    cases h
    nofun

-- What keeps a relocation from being resolved is never its site.
theorem value_ne_badSite {r : Relocation} (h : r.value symbols relocs = .error d) :
    d ≠ .badSite site := by
  unfold value at h
  cases ha : resolve symbols r.target r.site
  case error e =>
    rw [ha] at h
    cases h
    exact resolve_ne_badSite ha
  case ok address =>
    simp only [ha, bind, Except.bind] at h
    split at h
    case h_1 | h_2 =>
      split at h
      case isTrue => cases h
      case isFalse =>
        cases h
        nofun
    case h_3 | h_4 => cases h
    case h_5 =>
      split at h
      case h_1 =>
        cases h
        nofun
      case h_2 hi _ =>
        cases hr : resolve symbols hi.target r.site
        case ok => simp [hr, pure, Except.pure] at h
        case error e =>
          simp only [hr, Except.error.injEq] at h
          exact h ▸ resolve_ne_badSite hr

theorem patch_ne_badSite {r : Relocation} {w : Word} (h : r.patch symbols relocs w = .error d) :
    d ≠ .badSite site := by
  unfold patch at h
  cases hv : r.value symbols relocs
  case ok => rw [hv] at h; cases h
  case error e =>
    rw [hv] at h
    cases h
    exact value_ne_badSite hv

end Relocation

namespace Linked

variable {l : Linked} {relocs : Array Relocation} {r : Relocation} {rs : List Relocation} {a : Word}

theorem relocate_of_not_mapped (h : ¬l.space.Mapped r.site 4) :
    l.relocate relocs r = l.report (.badSite r.site) := by
  rw [relocate, AddressSpace.peekWord_of_not_mapped h]

theorem relocate_of_check (relocs : Array Relocation) {q : Region}
    (h : l.space.check r.site 4 .none = .ok q) :
    (∃ d, l.relocate relocs r = l.report d ∧ d ≠ .badSite r.site) ∨
      ∃ w, l.relocate relocs r = { l with space := l.space.overwrite r.site (Word.toBytes w) } := by
  have hp : l.space.peekWord r.site = .ok (Word.ofBytes (q.read r.site 4)) := by
    rw [AddressSpace.peekWord, AddressSpace.read_of_check (lt_addressLimit (by decide)) h]
    rfl
  simp only [relocate, hp]
  split
  case h_1 d hd => exact .inl ⟨d, rfl, Relocation.patch_ne_badSite hd⟩
  case h_2 w _  => exact .inr ⟨w, rfl⟩

-- A site is bad exactly where no region holds its word.
theorem diagnostics_relocate_iff (hs : l.space.WellFormed) :
    (l.relocate relocs r).diagnostics = l.diagnostics.push (.badSite r.site) ↔
      ¬l.space.Mapped r.site 4 := by
  constructor
  case mpr =>
    intro h
    rw [relocate_of_not_mapped h]
    rfl
  case mp =>
    intro hd h
    have ⟨_, hc⟩ := AddressSpace.exists_check hs h (by decide)
    match relocate_of_check relocs hc with
    | .inl ⟨d, he, hne⟩ =>
      rw [he] at hd
      exact hne (Array.push_eq_push.mp hd).left
    | .inr ⟨_, he⟩ =>
      rw [he] at hd
      simpa using congrArg Array.size hd

-- Whether of all bytes only those at mapped sites of relocations have changed.
structure Patched (rs : List Relocation) (l l' : Linked) : Prop where
  alike : l.space.Alike (fun _ => False) l'.space
  bytes : ∀ a, (∀ r ∈ rs, l.space.Mapped r.site 4 → ¬a.Within r.site 4) →
    l'.space.byte? a = l.space.byte? a

theorem patched_relocate (hs : l.space.WellFormed) : Patched [r] l (l.relocate relocs r) := by
  by_cases h : l.space.Mapped r.site 4
  case neg =>
    rw [relocate_of_not_mapped h]
    exact ⟨.refl _ _, fun _ _ => rfl⟩
  case pos =>
    have ⟨_, hc⟩ := AddressSpace.exists_check hs h (by decide)
    match relocate_of_check relocs hc with
    | .inl ⟨_, he, _⟩ =>
      rw [he]
      exact ⟨.refl _ _, fun _ _ => rfl⟩
    | .inr ⟨w, he⟩ =>
      rw [he]
      refine ⟨AddressSpace.alike_overwrite _ _ _, fun a ha => ?_⟩
      rw [← Word.length_toBytes w] at hc
      rw [AddressSpace.byte?_overwrite hs hc, Word.length_toBytes,
        if_neg (ha r (List.mem_singleton_self r) h)]

theorem patched_foldl (hs : l.space.WellFormed) (relocs : Array Relocation) (rs : List Relocation) :
    Patched rs l (rs.foldl (relocate relocs) l) := by
  induction rs generalizing l
  case nil => exact ⟨.refl _ _, fun _ _ => rfl⟩
  case cons r rs ih =>
    have hr : Patched [r] l (l.relocate relocs r) := patched_relocate hs
    have hrs := ih (hs.alike hr.alike)
    refine ⟨hr.alike.trans hrs.alike, fun a ha => ?_⟩
    have ⟨hhead, htail⟩ := List.forall_mem_cons.mp ha
    rw [List.foldl_cons, hrs.bytes a, hr.bytes a]
    case _ => exact List.forall_mem_singleton.mpr hhead
    case _ => exact fun q hq hm => htail q hq (hr.alike.mapped_iff.mp hm)

-- Whether a word at a site is in the pages of the image, or in those of a stack.
def Patchable (l : Linked) (stackSize : Nat) (site : Word) : Prop :=
  l.base.Spans (pageCeil (max l.imageLen 1)) site 4 ∨
    ∃ bottom : Word, l.stackTop = some (bottom + BitVec.ofNat 32 stackSize) ∧
      bottom.Spans (pageCeil stackSize) site 4

end Linked

namespace AddressSpace

variable {s s' : AddressSpace} {size n : Nat} {top : Option Word} {addr : Word}

theorem mapped_allocateStack (hs : s.WellFormed) (h : s.allocateStack size = .ok (top, s')) :
    s'.Mapped addr n ↔ s.Mapped addr n ∨
      ∃ bottom : Word, top = some (bottom + BitVec.ofNat 32 size) ∧
        bottom.Spans (pageCeil size) addr n := by
  obtain ⟨rfl, rfl⟩ | ⟨_, rfl, ha⟩ := allocateStack_cases h
  case inl => simp
  case inr => simp [mapped_allocate hs ha, or_comm]

end AddressSpace

namespace Object

variable {o : Object} {cfg : LinkConfig} {l : Linked} {site : Word}

theorem place_wellFormed_patchable (h : o.place cfg = .ok l) :
    l.space.WellFormed ∧ ∀ site, l.space.Mapped site 4 ↔ l.Patchable cfg.stackSize site := by
  obtain ⟨blank, loaded, hp⟩ := exists_placed h
  refine ⟨hp.wellFormed_space, fun site => ?_⟩
  rw [AddressSpace.mapped_allocateStack hp.wellFormed_loaded hp.stack, hp.alike_loaded.mapped_iff,
    AddressSpace.mapped_allocate AddressSpace.wellFormed_empty hp.allocate, Linked.Patchable,
    hp.base, hp.imageLen]
  simp [AddressSpace.not_mapped_empty]

-- Relocating changes bytes at sites that can be patched and nowhere else. The sites that can be are
-- those in the pages of the image and of the stack, and they include all that the image holds.
theorem link_patched (h : o.place cfg = .ok l) :
    (∀ site, o.base.Spans o.image.size site 4 → l.Patchable cfg.stackSize site) ∧
      (∀ (before : List Relocation) (r : Relocation) (after : List Relocation),
        o.relocations.toList = before ++ r :: after →
        let l₁ := before.foldl (Linked.relocate o.relocations) l
        let l₂ := l₁.relocate o.relocations r
        (l₂.diagnostics = l₁.diagnostics.push (.badSite r.site) ↔
          ¬l.Patchable cfg.stackSize r.site) ∧
        (¬l.Patchable cfg.stackSize r.site → l₂.space = l₁.space)) ∧
      ∃ l', o.link cfg = .ok l' ∧
        (∀ a, l'.space.byte? a ≠ l.space.byte? a →
          ∃ r ∈ o.relocations, l.Patchable cfg.stackSize r.site ∧ a.Within r.site 4) ∧
        ((∀ r ∈ o.relocations, l.Patchable cfg.stackSize r.site →
            o.base.Spans o.image.size r.site 4) →
          ∀ a, l'.space.byte? a ≠ l.space.byte? a → a.Within o.base o.image.size) := by
  have ⟨hs, hmapped⟩ := place_wellFormed_patchable h
  have ⟨_, hbase, hlen, _⟩ := place_eq_ok h
  refine ⟨?held, ?sites, _, by rw [link, h]; rfl, ?bytes⟩
  case held =>
    intro site hsite
    refine .inl ?_
    rw [hbase, hlen]
    exact hsite.mono (Nat.le_trans (Nat.le_max_left _ 1) (le_pageCeil _))
  case sites =>
    intro before r after _ l₁ l₂
    have hp : Linked.Patched before l l₁ := Linked.patched_foldl hs o.relocations before
    rw [← hmapped, ← hp.alike.mapped_iff]
    refine ⟨Linked.diagnostics_relocate_iff (hs.alike hp.alike), fun hm => ?_⟩
    simp only [l₂, Linked.relocate_of_not_mapped hm]
    rfl
  case bytes =>
    have hp := Linked.patched_foldl hs o.relocations o.relocations.toList
    rw [Array.foldl_toList] at hp
    have hall a (ha : (o.relocations.foldl (Linked.relocate o.relocations) l).space.byte? a ≠
        l.space.byte? a) :
        ∃ r ∈ o.relocations, l.Patchable cfg.stackSize r.site ∧ a.Within r.site 4 := by
      by_contra hnone
      refine ha (hp.bytes a fun r hr hm haw => hnone ⟨r, by simpa using hr, ?_, haw⟩)
      exact (hmapped r.site).mp hm
    refine ⟨hall, fun hin a ha => ?_⟩
    obtain ⟨r, hr, hpatch, haw⟩ := hall a ha
    exact (hin r hr hpatch).within haw

-- One word of code and a relocation of the word after it.
def pastEnd : Object where
  base := 0
  image := #[0, 0, 0, 0]
  symbols := SymbolTable.empty.push ⟨"x", 0x11223344, false⟩ (by
    simp [SymbolTable.get?, SymbolTable.empty])
  relocations := #[⟨4, .word, "x"⟩]
  diagnostics := #[]

theorem exists_link_pastEnd :
    ∃ l l', pastEnd.place { stackSize := 0 } = .ok l ∧
      pastEnd.link { stackSize := 0 } = .ok l' := by
  have ⟨l', hl⟩ : ∃ l', pastEnd.link { stackSize := 0 } = .ok l' :=
    exists_link rfl (by simp [pastEnd, pageSize, addressLimit_eq]) rfl
  obtain ⟨l, hplace, _⟩ := exists_of_map_eq_ok hl
  exact ⟨l, l', hplace, hl⟩

theorem link_patched_pastEnd :
    ∃ l, pastEnd.place { stackSize := 0 } = .ok l ∧ l.Patchable 0 0 ∧
      ∃ l', pastEnd.link { stackSize := 0 } = .ok l' ∧
        ∀ a, l'.space.byte? a ≠ l.space.byte? a → a.Within 4 4 := by
  have ⟨l, _, hplace, _⟩ := exists_link_pastEnd
  have ⟨hheld, _, l', hl, hbytes, _⟩ := link_patched hplace
  refine ⟨l, hplace, hheld 0 (by decide), l', hl, fun a ha => ?_⟩
  have ⟨r, hr, _, haw⟩ := hbytes a ha
  cases (by simpa [pastEnd] using hr : r = ⟨4, .word, "x"⟩)
  exact haw

-- The word after the image is patched, and nothing is reported.
theorem link_past_image :
    ∃ l l', pastEnd.place { stackSize := 0 } = .ok l ∧ pastEnd.link { stackSize := 0 } = .ok l' ∧
      ⟨4, .word, "x"⟩ ∈ pastEnd.relocations ∧ ¬pastEnd.base.Spans pastEnd.image.size 4 4 ∧
      l'.diagnostics = #[] ∧ l.space.byte? 4 = some 0 ∧ l'.space.byte? 4 = some 0x44 := by
  have ⟨l, l', hplace, hl⟩ := exists_link_pastEnd
  have hfold : l' = l.relocate pastEnd.relocations ⟨4, .word, "x"⟩ := by
    rw [link, hplace] at hl
    cases hl
    rfl
  obtain ⟨hm, _, _, hsym, hd⟩ := place_eq_ok hplace
  -- The page of the image goes on past its end.
  let f : Fragment := .pending .word "x" 0
  have hpad : pastEnd.padding = f.bytes ++ List.replicate 4088 0 := by
    have hn : pageCeil (max pastEnd.image.size 1) - pastEnd.image.toList.length = 4 + 4088 := by
      decide
    rw [padding, hn, ← List.replicate_append_replicate]
    rfl
  have hf : l.space.Maps 0 .all ([0, 0, 0, 0] ++ f.bytes ++ List.replicate 4088 0) := by
    rw [hpad, ← List.append_assoc] at hm
    exact hm
  have hx : l.symbols.address? "x" = some 0x11223344 := by
    rw [hsym, SymbolTable.address?, pastEnd, SymbolTable.get?_push]
    rfl
  have hpatch : Relocation.patch ⟨4, .word, "x"⟩ l.symbols pastEnd.relocations 0 =
      .ok 0x11223344 := by
    rw [Relocation.patch, Relocation.value, Relocation.resolve_eq_ok_iff.mpr hx]
    rfl
  obtain ⟨_, hmaps, hdiag⟩ : l.Keeps l' ∧
      l'.space.Maps 0 .all
        ([0, 0, 0, 0] ++ f.linked l.symbols pastEnd.relocations 4 ++ List.replicate 4088 0) ∧
      l'.diagnostics.toList =
        l.diagnostics.toList ++ f.faults l.symbols pastEnd.relocations 4 := by
    rw [hfold]
    exact l.foldl_relocate_fragment pastEnd.relocations hf
  have hlinked : f.linked l.symbols pastEnd.relocations 4 = [0x44, 0x33, 0x22, 0x11] := by
    simp only [f, Fragment.linked, hpatch]
    rfl
  have hfaults : f.faults l.symbols pastEnd.relocations 4 = [] := by
    simp only [f, Fragment.faults, hpatch]
  rw [hd.mpr ⟨rfl, rfl⟩, hfaults] at hdiag
  rw [hlinked, List.append_assoc] at hmaps
  rw [List.append_assoc] at hf
  refine ⟨l, l', hplace, hl, by simp [pastEnd], by decide, ?_, hf.byte?_eq, hmaps.byte?_eq⟩
  exact Array.toList_eq_nil_iff.mp hdiag

end Object

end RV32IM
