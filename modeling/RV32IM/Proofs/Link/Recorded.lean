import RV32IM.Proofs.Link.Exact
import RV32IM.Proofs.Machine.Far

-- What a session leaves to the linker. Whatever a session is told to do, its relocations are of
-- words that it has emitted one after the other, so linking finds every site, and the upper part of
-- every address that is loaded or called. A word is zero wherever it is to be filled in, unless the
-- statement that left it was given bits that are in the way.

namespace RV32IM

namespace Relocation

-- Whether the word of a relocation is at an offset of an image.
structure Lies (base : Word) (image : List Byte) (r : Relocation) (n : Nat) : Prop where
  site   : r.site = base + BitVec.ofNat 32 n
  inside : n + 4 ≤ image.length

-- Whether the word of a relocation waits at an offset of an image to be filled in.
structure Waits (base : Word) (image : List Byte) (r : Relocation) (n : Nat) : Prop
    extends Lies base image r n where
  vacant : ∀ f ∈ r.kind.layout (.atOffset image n), f.extract (.atOffset image n) = 0

end Relocation

namespace Fragment

variable {fs : List Fragment} {n m : Nat}

-- The offsets of the words that wait, where the first fragment is at offset `n`.
def offsets : Nat → List Fragment → List Nat
  | _, [] => []
  | n, fixed bs :: fs => offsets (n + bs.length) fs
  | n, pending _ _ _ :: fs => n :: offsets (n + 4) fs

theorem le_of_mem_offsets (h : m ∈ offsets n fs) : n ≤ m := by
  induction fs generalizing n
  case nil => cases h
  case cons f fs ih =>
    cases f
    case fixed => exact Nat.le_of_add_right_le (ih h)
    case pending =>
      cases h
      case head => exact Nat.le_refl _
      case tail h => exact Nat.le_of_add_right_le (ih h)

theorem pairwise_offsets (n : Nat) (fs : List Fragment) :
    (offsets n fs).Pairwise fun m k => m + 4 ≤ k := by
  induction fs generalizing n
  case nil => exact .nil
  case cons f fs ih =>
    cases f
    case fixed => exact ih _
    case pending => exact .cons (fun _ hm => le_of_mem_offsets hm) (ih _)

theorem lies_relocations (base : Word) (a : List Byte) (fs : List Fragment) :
    List.Forall₂ (Relocation.Lies base (a ++ image fs))
      (relocations (base + BitVec.ofNat 32 a.length) fs) (offsets a.length fs) := by
  induction fs generalizing a
  case nil => exact .nil
  case cons f fs ih =>
    have hsite : after (base + BitVec.ofNat 32 a.length) f =
        base + BitVec.ofNat 32 (a ++ f.bytes).length := by
      rw [after, List.length_append, BitVec.ofNat_add, BitVec.add_assoc]
    have htail := ih (a ++ f.bytes)
    rw [← hsite, List.append_assoc, ← image_cons, List.length_append] at htail
    cases f
    case fixed => exact htail
    case pending kind target w => exact .cons ⟨rfl, by simp [bytes]⟩ htail

end Fragment

namespace Object

variable {base : Word} {stmts pre post : List Stmt} {cfg : LinkConfig} {l₀ : Linked}

-- Whether the words of the relocations follow one another in the image.
structure Records (o : Object) (offsets : List Nat) : Prop where
  lies  : List.Forall₂ (Relocation.Lies o.base o.image.toList) o.relocations.toList offsets
  apart : offsets.Pairwise fun m n => m + 4 ≤ n

theorem exists_records (base : Word) (stmts : List Stmt) :
    ∃ offsets, (ofStmts base stmts).Records offsets := by
  have ⟨fs, hg⟩ := (Session.start base).grows_run stmts
  have ho : (ofStmts base stmts).Emits fs := Session.emits_grows (Session.emits_start base) hg
  refine ⟨_, ?_, Fragment.pairwise_offsets 0 fs⟩
  rw [ho.relocations, ho.image]
  simpa using Fragment.lies_relocations (ofStmts base stmts).base [] fs

-- The lower part of an address that is loaded or called has an upper part.
theorem not_fault_missingHiPair {o : Object} {p : Far} {symbol : String} {l : Linked}
    {r : Relocation} {anchor : Word} (heq : o = ofStmts base (pre ++ p.stmts symbol ++ post))
    (hl : o.link cfg = .ok l) (hr : r ∈ o.relocations.toList) :
    ¬r.Fault o.symbols o.relocations
      (.missingHiPair (((Session.start base).run pre).cursor + 4) anchor) := by
  obtain ⟨fs, gs, ho, hsite, hanchor⟩ := p.emits_stmts symbol base pre post
  rw [← heq] at ho hsite hanchor
  generalize ((Session.start base).run pre).cursor = site at *
  generalize p.anchorName symbol _ = name at *
  have hupper : ⟨site, .hi, symbol⟩ ∈ o.relocations.toList := by
    rw [ho.relocations]
    exact Fragment.mem_relocations_iff.mpr ⟨fs, _, _, rfl, hsite⟩
  have hlower : ⟨site + 4, .lo, name⟩ ∈ o.relocations.toList := by
    rw [ho.relocations]
    refine Fragment.mem_relocations_iff.mpr ⟨fs ++ [_], _, gs, List.append_cons .., ?_⟩
    rw [hsite, Fragment.image_append, List.length_append, BitVec.ofNat_add, BitVec.add_assoc]
    rfl
  intro hf
  generalize hd : Diagnostic.missingHiPair (site + 4) anchor = d at hf
  cases hf
  case unpaired address _ ha hnone =>
    injection hd with hrsite
    have hrlower : r = ⟨site + 4, .lo, name⟩ := by
      have : Std.Symm fun r q : Relocation => r.site ≠ q.site := ⟨fun _ _ => Ne.symm⟩
      by_contra hne
      exact (pairwise_relocations ho hl).forall hr hlower hne hrsite.symm
    rw [hrlower, hanchor, Option.some_inj] at ha
    exact hnone _ (Array.mem_toList_iff.mp hupper) rfl ha
  all_goals cases hd

-- What linking reports of an object that a session has assembled.
theorem exists_link_reported (h : (ofStmts base stmts).place cfg = .ok l₀) :
    ∃ l ds, (ofStmts base stmts).link cfg = .ok l ∧
      l.diagnostics.toList = l₀.diagnostics.toList ++ ds ∧
      ∀ d ∈ ds, ∃ r ∈ (ofStmts base stmts).relocations.toList,
        r.Fault (ofStmts base stmts).symbols (ofStmts base stmts).relocations d := by
  have ⟨l, hl, hlinks⟩ := exists_linksTo h
  refine ⟨l, _, hl, by rw [hlinks.reported, place_diagnostics h], fun d hd => ?_⟩
  have ⟨r, hr, hf⟩ := List.mem_filterMap.mp hd
  exact ⟨r, hr, (hlinks.faults r (Array.mem_toList_iff.mp hr) d).mp hf⟩

end Object

namespace Session

open Object

variable {base : Word} {pre post : List Stmt} {st : Stmt} {r : Relocation}

-- What a statement leaves waits for the linker if it can be filled in.
theorem waits_of_records (hf : st.Fillable) (hr : st.Records ((start base).run pre) r) :
    r ∈ ((start base).run (pre ++ st :: post)).relocations ∧
      r.Waits base ((start base).run (pre ++ st :: post)).image.toList
        ((start base).run pre).image.size := by
  obtain ⟨w, hw, hsite, hmem, hsize, hat⟩ := exists_leaves_of_records hr post
  rw [← run_append] at hmem hsize hat
  have ⟨_, hpre⟩ := (start base).grows_run pre
  refine ⟨hmem, ?_⟩
  constructor
  case toLies =>
    refine ⟨?_, by rwa [Array.length_toList]⟩
    rw [hsite, cursor, hpre.base_eq, show (start base).base = base from rfl]
  case vacant =>
    rw [hat]
    exact hw.extract_eq_zero hf

-- Whatever a session is told to do, what it has produced stays as it is, its relocations are of
-- words of its image that do not overlap, and each anchor that it is asked for is bound under a
-- name of its own. A statement whose symbol can be filled in leaves a word that waits for that. So
-- linking finds all sites, and all upper parts that loads and calls of symbols need.
theorem records_run (base : Word) (stmts : List Stmt) :
    let s := (start base).run stmts
    (∀ later, s.Precedes (s.run later)) ∧ (∃ offsets, s.toObject.Records offsets) ∧
      (∀ pre st post r, stmts = pre ++ st :: post → st.Fillable →
        st.Records ((start base).run pre) r → r ∈ s.relocations ∧
          r.Waits base s.image.toList ((start base).run pre).image.size) ∧
      (∀ distance, ∃ n, (s.anchor distance).1 = anchorName n ∧
        s.Anchors distance n (s.anchor distance).2 ∧ n < (s.anchor distance).2.symbols.size) ∧
      ∀ cfg l₀, s.toObject.place cfg = .ok l₀ →
        ∃ l ds, s.toObject.link cfg = .ok l ∧
          l.diagnostics.toList = l₀.diagnostics.toList ++ ds ∧ (∀ site, .badSite site ∉ ds) ∧
          ∀ pre (p : Far) symbol post, stmts = pre ++ p.stmts symbol ++ post →
            ∀ anchor, .missingHiPair (((start base).run pre).cursor + 4) anchor ∉ ds := by
  intro s
  refine ⟨fun later => ?stays, exists_records base stmts, fun pre st post r hstmts hf hr => ?waits,
    fun distance => ?anchor, fun cfg l₀ h => ?link⟩
  case stays =>
    have ⟨_, hg⟩ := s.grows_run later
    exact hg.precedes
  case waits =>
    subst hstmts
    exact waits_of_records hf hr
  case anchor =>
    have ⟨n, hn, ha⟩ := s.anchors_anchor distance
    refine ⟨n, hn, ha, ?_⟩
    have hc := ((counted_run base stmts).anchor distance).le_size
    rw [ha.rest] at hc
    exact hc
  case link =>
    have ⟨l, ds, hl, hd, hfault⟩ := exists_link_reported h
    refine ⟨l, ds, hl, hd, fun site hmem => ?_, fun pre p symbol post hstmts anchor hmem => ?_⟩
    case refine_1 =>
      have ⟨_, _, hf⟩ := hfault _ hmem
      cases hf
    case refine_2 =>
      have ⟨_, hr, hf⟩ := hfault _ hmem
      subst hstmts
      exact not_fault_missingHiPair rfl hl hr hf

-- The upper part that is needed at address 8 is the one at address 4, which waits for its number.
theorem records_run_sample :
    let s := (start 0).run sample
    (∃ offsets, s.toObject.Records offsets) ∧
      Relocation.Waits 0 s.image.toList ⟨4, .hi, "end"⟩ 4 ∧
      ∃ l₀, s.toObject.place { stackSize := 0 } = .ok l₀ ∧
        ∃ l ds, s.toObject.link { stackSize := 0 } = .ok l ∧
          l.diagnostics.toList = l₀.diagnostics.toList ++ ds ∧ (∀ site, .badSite site ∉ ds) ∧
          ∀ anchor, .missingHiPair 8 anchor ∉ ds := by
  intro s
  have ⟨_, hl, _⟩ := link_sample
  obtain ⟨l₀, hplace, _⟩ := exists_of_map_eq_ok hl
  have ⟨_, hrecords, hwaits, _, hlink⟩ := records_run 0 sample
  have ⟨l, ds, hl, hd, hsites, hpairs⟩ := hlink { stackSize := 0 } l₀ hplace
  refine ⟨hrecords, ?_, l₀, hplace, l, ds, hl, hd, hsites, ?_⟩
  case refine_1 =>
    have hf : (Stmt.upper .auipc .a0 (.hi "end")).Fillable :=
      fillable_sample _ (by simp [sample, Stmt.la])
    exact (hwaits [.j (.label "end")] _ _ ⟨4, .hi, "end"⟩ rfl hf rfl).right
  case refine_2 =>
    exact hpairs [.j (.label "end")] (.la .a0) "end" [.label "end", .wordOf "end"] rfl

-- A branch with the fixed bits of a subtraction, one of which is where the displacement goes.
def misfit : List Stmt := [.emitBranch Op.sub.fixedBits .ra .sp (.label "gone")]

theorem not_waits_misfit :
    let s := (start 0).run misfit
    ¬∀ r ∈ s.relocations, ∃ n, r.Waits 0 s.image.toList n := by
  intro s h
  have himage : s.image.toList = [0x33, 0x80, 0x20, 0x40] := by decide
  obtain ⟨n, hw⟩ := h ⟨0, .branch, "gone"⟩ (Array.mem_singleton_self _)
  rw [himage] at hw
  obtain rfl : n = 0 := by
    have hn := hw.inside
    simp only [List.length_cons, List.length_nil] at hn
    omega
  have hbit : Field.extract ⟨25, 6⟩ (.atOffset [0x33, 0x80, 0x20, 0x40] 0) = 0 :=
    hw.vacant ⟨25, 6⟩ (by decide)
  exact absurd hbit (by decide)

end Session

end RV32IM
