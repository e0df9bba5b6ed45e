import RV32IM.Proofs.Instr.Decode
import RV32IM.Proofs.Layout.Displacement
import RV32IM.Proofs.Link.Fault
import RV32IM.Proofs.Link.Placeholder

-- Linking, one relocation at a time. A relocation with a fault is reported and leaves its word as
-- it was emitted. Every other one changes the immediate of its word and nothing else.

namespace RV32IM

namespace Fragment

variable {symbols : SymbolTable} {relocs : Array Relocation} {site v w : Word} {kind : RelocKind}
  {target : String} {d : Diagnostic}

theorem linked_of_value (h : Relocation.value ⟨site, kind, target⟩ symbols relocs = .ok v) :
    (pending kind target w).linked symbols relocs site = (Relocation.fill w v kind).toBytes := by
  rw [linked, Relocation.patch, h]
  rfl

theorem linked_of_value_error
    (h : Relocation.value ⟨site, kind, target⟩ symbols relocs = .error d) :
    (pending kind target w).linked symbols relocs site = w.toBytes := by
  rw [linked, Relocation.patch, h]
  rfl

end Fragment

namespace Relocation

variable (symbols : SymbolTable) (relocs : Array Relocation)

-- What linking makes of the word `w` at the site of a relocation.
structure Applied (r : Relocation) (w w' : Word) : Prop where
  kept    : (∃ d, r.Fault symbols relocs d) → w' = w
  bits    : (r.kind.layout w).Confines w w'
  -- An instruction that takes such a number is the same one with another immediate.
  code    : ∀ i, Instr.decode w = some i → r.kind.Suits i.op.format →
    r.kind.layout w = i.op.format.layout ∧
      Instr.decode w' = some { i with imm := i.op.format.immediate w' }
  reached : r.kind = .jump ∨ r.kind = .branch → (¬∃ d, r.Fault symbols relocs d) →
    ∀ f, r.kind.Suits f → symbols.address? r.target = some (r.site + f.immediate w')
  address : r.kind = .word → (¬∃ d, r.Fault symbols relocs d) →
    symbols.address? r.target = some w'

variable {symbols relocs} {r : Relocation} {i : Instr} {v w : Word}

-- The number of a jump or a branch is the displacement to its target.
theorem value_reaches (hk : r.kind = .jump ∨ r.kind = .branch)
    (hv : r.value symbols relocs = .ok v) :
    symbols.address? r.target = some (r.site + v) ∧ v &&& 1 = 0 ∧
      fitsSigned v.toInt r.kind.width := by
  have ⟨ha, hr⟩ := value_displacement hk hv
  obtain ⟨address, ht, rfl⟩ := Option.map_eq_some_iff.mp ha
  rw [Session.reaches, Bool.and_eq_true, beq_iff_eq] at hr
  exact ⟨by rw [ht, add_sub_cancel], hr⟩

-- A number that is filled in is the immediate of the instruction, scaled if it is an upper part.
theorem exists_fill_encode (hi : i.RegsFit) (h0 : i.imm = 0) (hs : r.kind.Suits i.op.format)
    (hv : r.value symbols relocs = .ok v) :
    ∃ imm, fill i.encode v r.kind = { i with imm }.encode ∧ { i with imm }.WellFormed := by
  have hwf {f : Format} {imm : Word} (hf : i.op.format = f) (himm : f.Holds imm) :
      { i with imm }.WellFormed :=
    ⟨⟨hi.rd, hi.rs1, hi.rs2⟩, hf ▸ himm⟩
  obtain ⟨site, kind, target⟩ := r
  cases kind
  case word => exact hs.elim
  case jump =>
    have ⟨_, hh⟩ := value_reaches (.inl rfl) hv
    exact ⟨v, fill_jump hi h0 hs v, hwf hs hh⟩
  case branch =>
    have ⟨_, hh⟩ := value_reaches (.inr rfl) hv
    exact ⟨v, fill_branch hi h0 hs v, hwf hs hh⟩
  case hi =>
    obtain ⟨address, _, rfl⟩ := Option.map_eq_some_iff.mp (value_hi hv)
    exact ⟨_, fill_upper hi h0 hs (toNat_upperPart_lt _), hwf hs (Field.shiftLeft_and_mask 12 _)⟩
  case lo =>
    obtain ⟨_, _, _, _, _, _, rfl⟩ := value_lo hv
    refine ⟨_, fill_low hi h0 hs _, ?_⟩
    rcases hs with hs | hs | hs <;> exact hwf hs (fitsSigned_lowerPart _)

-- Whatever immediate an instruction has, another one takes its place.
theorem decode_fill (hd : Instr.decode w = some i) (hs : r.kind.Suits i.op.format)
    (hv : r.value symbols relocs = .ok v) :
    Instr.decode (fill w v r.kind) =
      some { i with imm := i.op.format.immediate (fill w v r.kind) } := by
  have hi := (Instr.wellFormed_of_decode hd).toRegsFit
  have hfence : i.op ≠ .fence := by
    intro hf
    rw [hf] at hs
    cases hk : r.kind <;> simp [hk, RelocKind.Suits, Op.format, Op.coding] at hs
  have hw : i.encode = w := Instr.encode_decode hd (absurd · hfence)
  have hzero : Instr.RegsFit { i with imm := 0 } := ⟨hi.rd, hi.rs1, hi.rs2⟩
  have hconf : (r.kind.layout (Instr.encode { i with imm := 0 })).Confines
      (Instr.encode { i with imm := 0 }) i.encode := by
    rw [layout_encode hzero hs, Instr.encode_of_imm_eq_zero hzero rfl, Instr.encode_eq hi]
    exact Layout.confines_insert _ _ _
  obtain ⟨imm, hfill, hwf⟩ := exists_fill_encode hzero rfl hs hv
  have hdec := Instr.decode_encode hwf
  rw [← hfill, ← fill_eq_of_confines hconf, hw] at hdec
  have himm := (Instr.readFrom_of_decode hdec).right.imm
  rw [hdec, ← himm]

-- The displacement is read back from where it was put.
theorem immediate_fill (hk : r.kind = .jump ∨ r.kind = .branch)
    (hv : r.value symbols relocs = .ok v) {f : Format} (hs : r.kind.Suits f) :
    f.immediate (fill w v r.kind) = v := by
  have ⟨_, hh⟩ := value_reaches hk hv
  obtain ⟨site, kind, target⟩ := r
  rcases hk with hk | hk
  case inl =>
    cases hk
    cases hs
    exact Format.immediate_replace (f := .jump) hh w
  case inr =>
    cases hk
    cases hs
    exact Format.immediate_replace (f := .branch) hh w

theorem applied_of_fault {d : Diagnostic} (hf : r.Fault symbols relocs d) :
    r.Applied symbols relocs w w where
  kept _ := rfl
  bits _ _ _ := rfl
  code i hd hs := by
    have ⟨hkey, hread⟩ := Instr.readFrom_of_decode hd
    exact ⟨layout_of_key hkey hs, by rw [hd, ← hread.imm]⟩
  reached _ hn := absurd ⟨d, hf⟩ hn
  address _ hn := absurd ⟨d, hf⟩ hn

theorem applied_fill (hd : relocs.toList.Pairwise fun r q => r.site ≠ q.site)
    (hv : r.value symbols relocs = .ok v) : r.Applied symbols relocs w (fill w v r.kind) where
  kept := fun ⟨d, hf⟩ => by cases hv.symm.trans (value_eq_error_of_fault hd hf)
  bits := confines_fill w v r.kind
  code i hi hs := ⟨layout_of_key (Instr.readFrom_of_decode hi).left hs, decode_fill hi hs hv⟩
  reached hk _ f hs := by
    rw [immediate_fill hk hv hs]
    exact (value_reaches hk hv).left
  address hk _ := by
    obtain ⟨site, kind, target⟩ := r
    cases hk
    exact value_word hv

theorem applied (symbols : SymbolTable) (hd : relocs.toList.Pairwise fun r q => r.site ≠ q.site)
    (r : Relocation) (w : Word) :
    ∃ w', (Fragment.pending r.kind r.target w).linked symbols relocs r.site = w'.toBytes ∧
      r.Applied symbols relocs w w' := by
  cases hv : r.value symbols relocs
  case ok v => exact ⟨_, Fragment.linked_of_value hv, applied_fill hd hv⟩
  case error d =>
    have hf := fault_of_value_eq_error hd hv
    exact ⟨_, Fragment.linked_of_value_error hv, applied_of_fault hf⟩

end Relocation

namespace Fragment

variable {symbols : SymbolTable} {relocs : Array Relocation} {site : Word}
  {fs gs hs : List Fragment} {f : Fragment} {n : Nat}

-- A fragment that is linked is where it was emitted.
theorem getElem?_linkedImage_append (hle : (image gs).length ≤ n)
    (hlt : n < (image gs).length + f.bytes.length) :
    (linkedImage symbols relocs site (gs ++ f :: hs))[n]? =
      (f.linked symbols relocs
        (site + BitVec.ofNat 32 (image gs).length))[n - (image gs).length]? := by
  have hgs : (linkedImage symbols relocs site gs).length = (image gs).length :=
    length_linkedImage site gs
  have hf : (f.linked symbols relocs (site + BitVec.ofNat 32 (image gs).length)).length =
      f.bytes.length := length_linked _ f
  rw [linkedImage_append, linkedImage, List.getElem?_append_right (by omega),
    List.getElem?_append_left (by omega), hgs]

theorem atOffset_linkedImage {w : Word}
    (h : f.linked symbols relocs (site + BitVec.ofNat 32 (image gs).length) = w.toBytes) :
    Word.atOffset (linkedImage symbols relocs site (gs ++ f :: hs)) (image gs).length = w := by
  have hgs : (linkedImage symbols relocs site gs).length = (image gs).length :=
    length_linkedImage site gs
  rw [linkedImage_append, linkedImage, h, ← hgs, Word.atOffset_append]

-- A word that waits is at the offset at which it was emitted, in an image that fits the address
-- space.
theorem offset_eq (site : Word) {kind : RelocKind} {target : String} {w : Word}
    (hlen : (image (gs ++ pending kind target w :: hs)).length ≤ addressLimit) :
    (site + BitVec.ofNat 32 (image gs).length - site).toNat = (image gs).length ∧
      (image gs).length + 4 ≤ (image (gs ++ pending kind target w :: hs)).length := by
  rw [image_append, image_cons, bytes, List.length_append, List.length_append,
    Word.length_toBytes] at hlen ⊢
  refine ⟨?_, by omega⟩
  rw [add_sub_cancel_left, BitVec.toNat_ofNat]
  rw [addressLimit_eq] at hlen
  omega

-- What a relocation does to its word in the linked image.
theorem applied_linkedImage (hd : relocs.toList.Pairwise fun r q => r.site ≠ q.site)
    (hlen : (image fs).length ≤ addressLimit) {r : Relocation}
    (hr : r ∈ relocations site fs) :
    let n := (r.site - site).toNat
    n + 4 ≤ (image fs).length ∧
      r.Applied symbols relocs (.atOffset (image fs) n)
        (.atOffset (linkedImage symbols relocs site fs) n) := by
  intro n
  obtain ⟨gs, w, hs', rfl, hsite⟩ := mem_relocations_iff.mp hr
  obtain ⟨hn, hle⟩ := offset_eq site hlen
  have ⟨w', hlinked, happ⟩ := Relocation.applied symbols hd r w
  have hi : image (gs ++ pending r.kind r.target w :: hs') =
      image gs ++ (w.toBytes ++ image hs') := by
    rw [image_append, image_cons, bytes]
  rw [hsite] at hlinked
  simp only [n, hsite, hn]
  rw [atOffset_linkedImage hlinked, hi, Word.atOffset_append, ← hi]
  exact ⟨hle, happ⟩

-- A byte belongs to one fragment.
theorem exists_fragment (h : n < (image fs).length) :
    ∃ gs f hs, fs = gs ++ f :: hs ∧ (image gs).length ≤ n ∧
      n < (image gs).length + f.bytes.length := by
  induction fs generalizing n
  case nil => cases h
  case cons f fs ih =>
    rw [image_cons, List.length_append] at h
    by_cases hn : n < f.bytes.length
    case pos => exact ⟨[], f, fs, rfl, n.zero_le, by simpa using hn⟩
    case neg =>
      obtain ⟨gs, g, hs, rfl, hle, hlt⟩ := ih (show n - f.bytes.length < (image fs).length by omega)
      refine ⟨f :: gs, g, hs, rfl, ?_, ?_⟩ <;> rw [image_cons, List.length_append] <;> omega

-- The bytes that are no word of a relocation stay as they were emitted.
theorem getElem?_linkedImage (hlen : (image fs).length ≤ addressLimit)
    (hn : ∀ r ∈ relocations site fs,
      n < (r.site - site).toNat ∨ (r.site - site).toNat + 4 ≤ n) :
    (linkedImage symbols relocs site fs)[n]? = (image fs)[n]? := by
  have hl : (linkedImage symbols relocs site fs).length = (image fs).length :=
    length_linkedImage site fs
  by_cases h : n < (image fs).length
  case neg => rw [List.getElem?_eq_none (by omega), List.getElem?_eq_none (by omega)]
  case pos =>
    obtain ⟨gs, f, hs, rfl, hle, hlt⟩ := exists_fragment h
    rw [getElem?_linkedImage_append hle hlt]
    cases f
    case fixed bs =>
      rw [bytes] at hlt
      rw [linked, image_append, image_cons, bytes, List.getElem?_append_right hle,
        List.getElem?_append_left (by omega)]
    case pending kind target w =>
      have hr := hn ⟨site + BitVec.ofNat 32 (image gs).length, kind, target⟩
        (mem_relocations_iff.mpr ⟨gs, w, hs, rfl, rfl⟩)
      rw [(offset_eq site hlen).left] at hr
      rw [bytes, Word.length_toBytes] at hlt
      omega

end Fragment

-- What linking an object gives, one relocation at a time.
structure Object.LinksTo (o : Object) (cfg : LinkConfig) (l : Linked) : Prop where
  -- What assembling reported, then the base, then the faults of the relocations.
  reported  : l.diagnostics.toList = o.diagnostics.toList ++
    (if cfg.base = o.base then [] else [.baseMismatch o.base cfg.base]) ++
    o.relocations.toList.filterMap (Relocation.fault? o.symbols o.relocations)
  faults    : ∀ r ∈ o.relocations, ∀ d,
    r.fault? o.symbols o.relocations = some d ↔ r.Fault o.symbols o.relocations d
  size      : l.image.length = o.image.size
  applied   : ∀ r ∈ o.relocations, (r.site - o.base).toNat + 4 ≤ o.image.size ∧
    r.Applied o.symbols o.relocations (.atOffset o.image.toList (r.site - o.base).toNat)
      (.atOffset l.image (r.site - o.base).toNat)
  elsewhere : ∀ n, (∀ r ∈ o.relocations,
    n < (r.site - o.base).toNat ∨ (r.site - o.base).toNat + 4 ≤ n) → l.image[n]? = o.image[n]?

namespace Object

variable {o : Object} {cfg : LinkConfig} {l l₀ : Linked} {base : Word} {stmts : List Stmt}

-- Only another base is reported before the relocations are looked at.
theorem place_diagnostics (h : o.place cfg = .ok l₀) :
    l₀.diagnostics.toList = o.diagnostics.toList ++
      if cfg.base = o.base then [] else [.baseMismatch o.base cfg.base] := by
  obtain ⟨_, _, hp⟩ := exists_placed h
  rw [hp.diagnostics]
  split <;> simp

theorem link_diagnostics {fs : List Fragment} (ho : o.Emits fs) (h : o.link cfg = .ok l) :
    l.diagnostics.toList = o.diagnostics.toList ++
      (if cfg.base = o.base then [] else [.baseMismatch o.base cfg.base]) ++
      o.relocations.toList.filterMap (Relocation.fault? o.symbols o.relocations) := by
  have ⟨l₀, hplace, hl⟩ := exists_of_map_eq_ok h
  have ⟨hm, _, _, hsym, _⟩ := place_eq_ok hplace
  rw [ho.image] at hm
  have ⟨_, _, hd⟩ := l₀.foldl_relocate o.relocations (a := []) hm
  simp only [List.length_nil, BitVec.add_zero, ← ho.relocations, Array.foldl_toList, hsym, hl,
    Fragment.allFaults_eq, place_diagnostics hplace] at hd
  exact hd

-- Whatever a session has assembled and wherever it can be mapped, linking finishes. It reports each
-- relocation that has a fault and leaves its word alone, patches the word of every other one, and
-- touches nothing else in the image.
theorem exists_linksTo (h : (ofStmts base stmts).place cfg = .ok l₀) :
    ∃ l, (ofStmts base stmts).link cfg = .ok l ∧ (ofStmts base stmts).LinksTo cfg l := by
  have ⟨fs, hg⟩ := (Session.start base).grows_run stmts
  have ho : (ofStmts base stmts).Emits fs := Session.emits_grows (Session.emits_start base) hg
  have ⟨l, hl⟩ := exists_link_of_place h
  have hlen := Nat.le_of_add_left_le (fits_of_place ho h)
  obtain ⟨himage, _⟩ := link_eq_ok ho hl
  have hd := pairwise_relocations ho hl
  generalize ofStmts base stmts = o at *
  have hsize : o.image.size = (Fragment.image fs).length := by
    rw [← ho.image, Array.length_toList]
  have hmem r (hr : r ∈ o.relocations) : r ∈ Fragment.relocations o.base fs :=
    ho.relocations ▸ Array.mem_toList_iff.mpr hr
  refine ⟨l, hl, ?_⟩
  constructor
  case reported => exact link_diagnostics ho hl
  case faults => exact fun r _ d => Relocation.fault?_eq_some_iff hd
  case size => rw [himage, hsize, Fragment.length_linkedImage]
  case applied =>
    intro r hr
    rw [himage, hsize, ho.image]
    exact Fragment.applied_linkedImage hd hlen (hmem r hr)
  case elsewhere =>
    intro n hn
    rw [himage, ← Array.getElem?_toList, ho.image]
    refine Fragment.getElem?_linkedImage hlen fun r hr => hn r ?_
    rwa [← Array.mem_toList_iff, ho.relocations]

theorem size_image_le (h : (ofStmts base stmts).place cfg = .ok l₀) :
    (ofStmts base stmts).image.size ≤ addressLimit := by
  have ⟨fs, hg⟩ := (Session.start base).grows_run stmts
  have ho : (ofStmts base stmts).Emits fs := Session.emits_grows (Session.emits_start base) hg
  rw [← Array.length_toList, ho.image]
  exact Nat.le_of_add_left_le (fits_of_place ho h)

-- The word of a statement that has the fixed bits of an operation with its layout.
theorem exists_decode_of_records {pre post : List Stmt} {st : Stmt} {r : Relocation}
    (hm : st.Matched) (hr : st.Records ((Session.start base).run pre) r)
    (hlen : (ofStmts base (pre ++ st :: post)).image.size ≤ addressLimit) :
    r ∈ (ofStmts base (pre ++ st :: post)).relocations ∧ (r.kind ≠ .word →
      ∃ i, Instr.decode (.atOffset (ofStmts base (pre ++ st :: post)).image.toList
        (r.site - base).toNat) = some i ∧ r.kind.Suits i.op.format) := by
  obtain ⟨w, hw, hsite, hmem, hsize, hat⟩ := Session.exists_leaves_of_records hr post
  rw [← Session.run_append] at hmem hsize hat
  have ⟨_, hpre⟩ := (Session.start base).grows_run pre
  have hn : (r.site - base).toNat = ((Session.start base).run pre).image.size := by
    have hlen : ((Session.start base).run (pre ++ st :: post)).image.size ≤ addressLimit := hlen
    rw [addressLimit_eq] at hlen
    rw [hsite, Session.cursor, hpre.base_eq, show (Session.start base).base = base from rfl,
      add_sub_cancel_left, BitVec.toNat_ofNat]
    omega
  rw [hn]
  exact ⟨hmem, fun hk => hat ▸ hw.exists_decode hm hk⟩

-- Linking is exact, whatever a session has assembled. The words of statements that have the fixed
-- bits of an operation with their layout are instructions before it, and so they are after it.
theorem link_exact (h : (ofStmts base stmts).place cfg = .ok l₀) :
    ∃ l, (ofStmts base stmts).link cfg = .ok l ∧ (ofStmts base stmts).LinksTo cfg l ∧
      ∀ pre st post r, stmts = pre ++ st :: post → st.Matched →
        st.Records ((Session.start base).run pre) r →
        r ∈ (ofStmts base stmts).relocations ∧ (r.kind ≠ .word →
          ∃ i, Instr.decode (.atOffset (ofStmts base stmts).image.toList (r.site - base).toNat) =
            some i ∧ r.kind.Suits i.op.format) := by
  have ⟨l, hl, hlinks⟩ := exists_linksTo h
  refine ⟨l, hl, hlinks, fun pre st post r hstmts hm hr => ?_⟩
  have hlen := size_image_le h
  subst hstmts
  exact exists_decode_of_records hm hr hlen

-- A jump to a symbol that nothing defines, and a word that holds its own address.
def dangling : List Stmt := [.j (.label "gone"), .label "end", .wordOf "end"]

theorem ofStmts_dangling :
    ∃ symbols, ofStmts 0 dangling =
        ⟨0, #[0x6f, 0, 0, 0, 0, 0, 0, 0], symbols, #[⟨0, .jump, "gone"⟩, ⟨4, .word, "end"⟩], #[]⟩ ∧
      symbols.address? "gone" = none ∧ symbols.address? "end" = some 4 := by
  obtain ⟨t, ht⟩ :=
    SymbolTable.add_eq_ok_iff.mpr (SymbolTable.get?_empty (Symbol.mk "end" 4#32 false).name)
  have hg := SymbolTable.get?_of_add_eq_ok ht
  have himage : (Instr.encodeJump Op.jal.fixedBits .zero 0#32).toBytes ++ Word.toBytes 0#32 =
      [0x6f, 0, 0, 0, 0, 0, 0, 0] := by decide
  refine ⟨t, ?_, by simp [SymbolTable.address?, hg], by simp [SymbolTable.address?, hg]⟩
  simp [ofStmts, dangling, Stmt.j, Stmt.jump, Session.run, Session.exec, Session.start,
    Session.label, Session.displacement, Session.record, Session.word, Session.bytes,
    Session.cursor, Session.define, ht, himage]

theorem exists_place_dangling (base : Word) :
    ∃ l₀, (ofStmts 0 dangling).place { base, stackSize := 0 } = .ok l₀ := by
  obtain ⟨symbols, ho, _⟩ := ofStmts_dangling
  have ⟨_, hl⟩ : ∃ l, (ofStmts 0 dangling).link { base, stackSize := 0 } = .ok l := by
    rw [ho]
    exact exists_link rfl (by simp [pageSize, addressLimit_eq]) rfl
  obtain ⟨l₀, hplace, _⟩ := exists_of_map_eq_ok hl
  exact ⟨l₀, hplace⟩

theorem link_exact_dangling :
    let cfg : LinkConfig := { base := 0x1000, stackSize := 0 }
    (∃ l₀, (ofStmts 0 dangling).place cfg = .ok l₀) ∧
      ∃ l, (ofStmts 0 dangling).link cfg = .ok l ∧ (ofStmts 0 dangling).LinksTo cfg l ∧
        l.diagnostics.toList = [.baseMismatch 0 0x1000, .undefinedSymbol "gone" 0] ∧
        Word.atOffset l.image 0 = 0x6f ∧ Word.atOffset l.image 4 = 4 := by
  intro cfg
  obtain ⟨symbols, ho, hgone, hend⟩ := ofStmts_dangling
  obtain ⟨l₀, hplace⟩ := exists_place_dangling 0x1000
  have ⟨l, hl, hexact, _⟩ := link_exact hplace
  refine ⟨⟨l₀, hplace⟩, l, hl, hexact, ?_⟩
  rw [ho] at hexact
  have hfault : Relocation.Fault symbols #[⟨0, .jump, "gone"⟩, ⟨4, .word, "end"⟩]
      ⟨0, .jump, "gone"⟩ (.undefinedSymbol "gone" 0) := .undefined hgone
  have hnone : Relocation.fault? symbols #[⟨0, .jump, "gone"⟩, ⟨4, .word, "end"⟩]
      ⟨4, .word, "end"⟩ = none := by
    rw [Relocation.fault?, Relocation.value, Relocation.resolve_eq_ok_iff.mpr hend]
    rfl
  refine ⟨?_, ?_, ?_⟩
  case refine_1 =>
    have hsome := (hexact.faults _ (by simp) _).mpr hfault
    rw [hexact.reported]
    simp only [List.filterMap, hsome, hnone]
    rfl
  case refine_2 =>
    obtain ⟨_, ha⟩ := hexact.applied ⟨0, .jump, "gone"⟩ (by simp)
    have hoffset : ((0 : Word) - 0).toNat = 0 := by decide
    simp only [hoffset] at ha
    exact (ha.kept ⟨_, hfault⟩).trans (by decide)
  case refine_3 =>
    obtain ⟨_, ha⟩ := hexact.applied ⟨4, .word, "end"⟩ (by simp)
    have hclean : ¬∃ d, Relocation.Fault symbols #[⟨0, .jump, "gone"⟩, ⟨4, .word, "end"⟩]
        ⟨4, .word, "end"⟩ d := by
      rintro ⟨d, hd⟩
      cases hnone.symm.trans ((hexact.faults _ (by simp) d).mpr hd)
    have hoffset : ((4 : Word) - 0).toNat = 4 := by decide
    simp only [hoffset] at ha
    have haddress : symbols.address? "end" = some (Word.atOffset l.image 4) :=
      ha.address rfl hclean
    exact (Option.some_inj.mp (hend.symm.trans haddress)).symm

-- Where the fixed bits are those of an operation with another layout, function bits can be in the
-- way of the number, so linking turns a branch on inequality into one on equality.
theorem function_lost_crossed :
    ∃ l r, (ofStmts 0 crossed).link { stackSize := 0 } = .ok l ∧ l.clean ∧
      r ∈ (ofStmts 0 crossed).relocations ∧ r.site = 0 ∧
      (¬∃ d, r.Fault (ofStmts 0 crossed).symbols (ofStmts 0 crossed).relocations d) ∧
      Field.extract ⟨12, 3⟩ (.atOffset (ofStmts 0 crossed).image.toList 0) = 1 ∧
      Field.extract ⟨12, 3⟩ (.atOffset l.image 0) = 0 := by
  obtain ⟨l, hl, hc, himage⟩ := link_crossed
  obtain ⟨symbols, ho, hend⟩ := ofStmts_crossed
  refine ⟨l, ⟨0, .jump, "end"⟩, hl, hc, ?_, rfl, ?_, ?_, ?_⟩
  case refine_1 =>
    rw [ho]
    exact Array.mem_singleton_self _
  case refine_2 =>
    rintro ⟨d, hd⟩
    have hv : Relocation.value ⟨0, .jump, "end"⟩ symbols #[⟨0, .jump, "end"⟩] = .ok (4 - 0) :=
      Relocation.value_displacement_eq_ok (.inl rfl) hend (by decide)
    rw [ho] at hd
    cases hv.symm.trans (Relocation.value_eq_error_of_fault (List.pairwise_singleton _ _) hd)
  case refine_3 =>
    have hw : Field.extract ⟨12, 3⟩ (.atOffset [0x63, 0x10, 0, 0] 0) = 1 := by decide
    rw [ho]
    exact hw
  case refine_4 =>
    rw [himage]
    decide

end Object

end RV32IM
