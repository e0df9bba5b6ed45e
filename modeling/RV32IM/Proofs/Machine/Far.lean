import RV32IM.Machine
import RV32IM.Proofs.Layout.Displacement
import RV32IM.Proofs.Link.Literal
import RV32IM.Proofs.Session.Anchor
import RV32IM.Proofs.Session.Emission

-- Reaching a symbol at any distance. The two instructions that load or call a symbol are linked in
-- such a way that executing them adds up to its address, whatever else the program contains.

namespace RV32IM

namespace Instr

variable {op : Op} {rd rs : Reg} {v : Word}

theorem wellFormed_upper (h : op.format = .upper) : (upper op rd v).WellFormed where
  toRegsFit := regsFit_jump (.inl h)
  imm := by
    simp only [upper, h]
    exact Field.shiftLeft_and_mask 12 v

theorem wellFormed_immediate (h : op.format = .imm) (hv : fitsSigned v.toInt 12) :
    (immediate op rd rs v).WellFormed where
  toRegsFit := regsFit_immediate (.imm h)
  imm := by
    simp only [immediate, h]
    exact hv

end Instr

-- The pseudo-instructions that reach a symbol at any distance.
inductive Far
  | la (rd : Reg)
  | call

namespace Far

def stmts (symbol : String) : Far → List Stmt
  | la rd => Stmt.la rd symbol
  | call => Stmt.call symbol

-- The register that both instructions write.
def dest : Far → Reg
  | la rd => rd
  | call => .ra

def lowOp : Far → Op
  | la _ => .addi
  | call => .jalr

-- The instructions at `site` that reach `address`.
def upper (p : Far) (site address : Word) : Instr :=
  .upper .auipc p.dest (splitDisplacement (address - site)).1

def lower (p : Far) (site address : Word) : Instr :=
  .immediate p.lowOp p.dest p.dest (splitDisplacement (address - site)).2

-- What the destination holds, and where execution goes on.
def result (site address : Word) : Far → Word
  | la _ => address
  | call => site + 8

def next (site address : Word) : Far → Word
  | la _ => site + 8
  | call => address &&& ~~~1

variable (p : Far) (site address : Word)

theorem format_lowOp : p.lowOp.format = .imm := by
  cases p <;> rfl

theorem stmts_eq (symbol : String) :
    p.stmts symbol =
      [.upper .auipc p.dest (.hi symbol),
        .immediate p.lowOp p.dest p.dest (.lo 4) (.imm p.format_lowOp)] := by
  cases p <;> rfl

theorem wellFormed_upper : (p.upper site address).WellFormed :=
  Instr.wellFormed_upper rfl

theorem wellFormed_lower : (p.lower site address).WellFormed :=
  Instr.wellFormed_immediate p.format_lowOp (fitsSigned_lowerPart _)

end Far

namespace Machine

variable {m : Machine} {i : Instr}

theorem and_three_eq_zero_iff {w : Word} : w &&& 3 = 0 ↔ w.toNat % 4 = 0 := by
  have h : (w &&& 3).toNat = w.toNat % 4 := by
    rw [BitVec.toNat_and]
    exact Nat.and_two_pow_sub_one_eq_mod _ 2
  rw [← BitVec.toNat_inj, h]
  rfl

-- A step executes the instruction whose word is fetched.
theorem step_encode (hi : i.WellFormed) (hpc : m.hart.pc.toNat % 4 = 0)
    (hf : m.space.fetch m.hart.pc = .ok i.encode) :
    m.step = exec { m with hart := m.hart.jump (m.hart.pc + 4) } m.hart.pc i := by
  have hd := Instr.decode_encode hi
  have hz : i.encode ≠ 0 := by
    intro hz
    have hnone : Instr.decode 0 = none := by decide
    cases hd.symm.trans (hz ▸ hnone)
  unfold step
  simp only [hf, hd]
  rw [if_neg (not_not_intro (and_three_eq_zero_iff.mpr hpc)), if_neg hz]

end Machine

namespace Far

variable {m : Machine} {address : Word}

theorem upperPart_add_lowerPart (site address : Word) :
    site + (splitDisplacement (address - site)).1 <<< 12 + (splitDisplacement (address - site)).2 =
      address := by
  rw [BitVec.add_assoc, splitDisplacement_add, BitVec.add_comm, BitVec.sub_add_cancel]

-- The hart between the two instructions.
def between (p : Far) (h : Hart) (address : Word) : Hart :=
  (h.jump (h.pc + 4)).setReg p.dest (h.pc + (splitDisplacement (address - h.pc)).1 <<< 12) |>.retire

theorem step_upper (p : Far) (hpc : m.hart.pc.toNat % 4 = 0)
    (hf : m.space.fetch m.hart.pc = .ok (p.upper m.hart.pc address).encode) :
    m.step = (.ok .retired, { m with hart := p.between m.hart address }) := by
  rw [Machine.step_encode (p.wellFormed_upper m.hart.pc address) hpc hf]
  rfl

theorem aligned_add_four {w : Word} (h : w.toNat % 4 = 0) : (w + 4).toNat % 4 = 0 := by
  have h4 : (4 : Word).toNat = 4 := rfl
  rw [BitVec.toNat_add, h4]
  omega

theorem step_lower (p : Far) (hp : p.dest ≠ .zero) {h : Hart} {space : AddressSpace}
    (hpc : h.pc.toNat % 4 = 0)
    (hf : space.fetch (h.pc + 4) = .ok (p.lower h.pc address).encode) :
    ∃ h', Machine.step ⟨p.between h address, space⟩ = (.ok .retired, ⟨h', space⟩) ∧
      h'.regs.get p.dest = p.result h.pc address ∧ h'.pc = p.next h.pc address ∧
      ∀ r, r ≠ p.dest → h'.regs.get r = h.regs.get r := by
  have ha : (p.between h address).regs.get p.dest =
      h.pc + (splitDisplacement (address - h.pc)).1 <<< 12 :=
    RegFile.get_set_self hp _
  have hsum := upperPart_add_lowerPart h.pc address
  rw [← ha] at hsum
  have hstep := Machine.step_encode (m := ⟨p.between h address, space⟩)
    (p.wellFormed_lower h.pc address) (aligned_add_four hpc) hf
  have hkeep r (hr : r ≠ p.dest) (w : Word) :
      ((p.between h address).regs.set p.dest w).get r = h.regs.get r := by
    rw [RegFile.get_set_of_ne hr]
    exact RegFile.get_set_of_ne hr _
  rw [hstep]
  have hnext : h.pc + 4 + 4 = h.pc + 8 := BitVec.add_assoc _ 4 4
  cases p
  case la rd =>
    refine ⟨_, rfl, ?_, hnext, fun r hr => hkeep r hr _⟩
    exact (RegFile.get_set_self hp _).trans hsum
  case call =>
    refine ⟨_, rfl, ?_, ?_, fun r hr => hkeep r hr _⟩
    · exact (RegFile.get_set_self hp _).trans hnext
    · exact congrArg (· &&& ~~~1) hsum

section Link

open Session

-- What the two instructions are assembled to, where the second has an anchor.
def fragments (p : Far) (symbol anchor : String) : List Fragment :=
  [.pending .hi symbol (Instr.encodeUpper Op.auipc.fixedBits p.dest 0),
    .pending .lo anchor (Instr.encodeImmediate p.lowOp.fixedBits p.dest p.dest 0)]

variable {p : Far} {symbol anchor : String} {symbols : SymbolTable} {relocs : Array Relocation}
  {site address : Word}

theorem linkedImage_fragments (hs : symbols.address? symbol = some address)
    (ha : symbols.address? anchor = some site)
    (hhi : Relocation.hiAt? relocs site = some ⟨site, .hi, symbol⟩) :
    Fragment.linkedImage symbols relocs site (p.fragments symbol anchor) =
      (p.upper site address).encode.toBytes ++ (p.lower site address).encode.toBytes := by
  have hupper : RelocKind.hi.Fills Layout.uImm Op.auipc.fixedBits :=
    RelocKind.fills_fixedBits (show Op.auipc.format = .upper from rfl) rfl
  have hlower : RelocKind.lo.Fills Layout.iImm p.lowOp.fixedBits :=
    RelocKind.fills_fixedBits p.format_lowOp (Or.inl rfl)
  have hu v : Relocation.fill (Instr.encodeUpper Op.auipc.fixedBits p.dest 0) v .hi =
      (Instr.upper .auipc p.dest v).encode := by
    rw [Relocation.fill_encodeUpper hupper, Instr.encode_upper rfl]
  have hl v : Relocation.fill (Instr.encodeImmediate p.lowOp.fixedBits p.dest p.dest 0) v .lo =
      (Instr.immediate p.lowOp p.dest p.dest v).encode := by
    rw [Relocation.fill_encodeImmediate hlower, Instr.encode_immediate (.imm p.format_lowOp)]
  have hsite : Fragment.after site
      (.pending .hi symbol (Instr.encodeUpper Op.auipc.fixedBits p.dest 0)) = site + 4 := rfl
  simp only [fragments, Fragment.linkedImage, Fragment.linked, Relocation.patch, List.append_nil,
    Relocation.value_hi_eq_ok hs, Relocation.value_lo_eq_ok ha hhi hs, Except.map, hu, hl, upper,
    lower]

variable {o : Object} {cfg : LinkConfig} {l : Linked} {fs gs : List Fragment}

-- The two words of the linked image.
theorem fetch_link (ho : o.Emits (fs ++ (p.fragments symbol anchor ++ gs)))
    (hsite : site = o.base + BitVec.ofNat 32 (Fragment.image fs).length)
    (h : o.link cfg = .ok l) (hx : cfg.textAccess.allows .execute)
    (hs : o.symbols.address? symbol = some address) (ha : o.symbols.address? anchor = some site) :
    l.space.fetch site = .ok (p.upper site address).encode ∧
      l.space.fetch (site + 4) = .ok (p.lower site address).encode := by
  have hmem : ⟨site, .hi, symbol⟩ ∈ o.relocations.toList := by
    rw [ho.relocations, Fragment.relocations_append, ← hsite]
    simp [fragments, Fragment.relocations]
  have hhi := (Relocation.hiAt?_eq_some_iff (Object.pairwise_relocations ho h)).mpr ⟨hmem, rfl, rfl⟩
  obtain ⟨_, ⟨c, hm⟩, _⟩ := Object.link_eq_ok ho h
  rw [Fragment.linkedImage_append, Fragment.linkedImage_append, ← hsite,
    linkedImage_fragments hs ha hhi] at hm
  have hlen : (Fragment.linkedImage o.symbols o.relocations o.base fs).length = _ :=
    Fragment.length_linkedImage o.base fs
  generalize Fragment.linkedImage o.symbols o.relocations o.base fs = a at hm hlen
  rw [← hlen] at hsite
  have hnext : site + 4 =
      o.base + BitVec.ofNat 32 (a ++ (p.upper site address).encode.toBytes).length := by
    rw [hsite, List.length_append, BitVec.ofNat_add, ← BitVec.add_assoc]
    rfl
  simp only [List.append_assoc] at hm
  rw [← List.append_assoc] at hm
  have hupper := hm.readWord_eq hx
  rw [← List.append_assoc] at hm
  have hlower := hm.readWord_eq hx
  rw [← hsite] at hupper
  rw [← hnext] at hlower
  exact ⟨hupper, hlower⟩

end Link

section Session

open Session

variable (p : Far) (symbol : String) (s : Session)

-- The session between the two instructions, and the anchor that it makes there.
def opened : Session :=
  (s.record .hi symbol).word (Instr.encodeUpper Op.auipc.fixedBits p.dest 0)

def anchorName : String :=
  ((p.opened symbol s).anchor 4).1

theorem grows_opened :
    s.Grows [.pending .hi symbol (Instr.encodeUpper Op.auipc.fixedBits p.dest 0)]
      (p.opened symbol s) :=
  Grows.refl.pending .hi symbol _

theorem grows_stmts :
    s.Grows (p.fragments symbol (p.anchorName symbol s)) (s.run (p.stmts symbol)) := by
  rw [stmts_eq]
  exact ((p.grows_opened symbol s).trans (grows_anchor _ 4)).pending .lo (p.anchorName symbol s) _

-- The anchor is where the upper part is.
theorem get?_anchorName :
    (s.run (p.stmts symbol)).symbols.get? (p.anchorName symbol s) =
      some ⟨p.anchorName symbol s, s.cursor, true⟩ := by
  have hc : (p.opened symbol s).cursor - 4 = s.cursor := by
    rw [(p.grows_opened symbol s).cursor_eq]
    exact BitVec.add_sub_cancel _ 4
  rw [stmts_eq, ← hc]
  exact (p.opened symbol s).get?_anchor 4

-- The two instructions in the middle of a program, with the anchor where the first of them is.
theorem emits_stmts (base : Word) (pre post : List Stmt) :
    let s := (start base).run pre
    let o := Object.ofStmts base (pre ++ p.stmts symbol ++ post)
    ∃ fs gs, o.Emits (fs ++ (p.fragments symbol (p.anchorName symbol s) ++ gs)) ∧
      s.cursor = o.base + BitVec.ofNat 32 (Fragment.image fs).length ∧
      o.symbols.address? (p.anchorName symbol s) = some s.cursor := by
  intro s o
  obtain ⟨fs, hfs⟩ := grows_run (start base) pre
  have hps := p.grows_stmts symbol s
  obtain ⟨gs, hgs⟩ := grows_run (s.run (p.stmts symbol)) post
  have ho : o = ((s.run (p.stmts symbol)).run post).toObject := by
    simp only [o, s, Object.ofStmts, run, List.foldl_append]
  have he : s.Emits fs := emits_grows (emits_start base) hfs
  rw [ho]
  refine ⟨fs, gs, emits_grows he (hps.trans hgs), ?_, ?_⟩
  case refine_1 => rw [cursor_eq_of_emits he, (hps.trans hgs).base_eq]
  case refine_2 =>
    rw [SymbolTable.address?, hgs.get?_symbols (p.get?_anchorName symbol s)]
    rfl

end Session

open Session in
-- Both instructions retire, and together they reach the symbol. Nothing but the destination and the
-- pc changes.
theorem step_step_of_link {p : Far} (hp : p.dest ≠ .zero) {base address : Word}
    {pre post : List Stmt} {symbol : String} {cfg : LinkConfig} {l : Linked} {m : Machine}
    (hlink : (Object.ofStmts base (pre ++ p.stmts symbol ++ post)).link cfg = .ok l)
    (hexec : cfg.textAccess.allows .execute)
    (hsym : (Object.ofStmts base (pre ++ p.stmts symbol ++ post)).symbols.address? symbol =
      some address)
    (hpc : m.hart.pc = ((start base).run pre).cursor) (haligned : m.hart.pc.toNat % 4 = 0)
    (hupper : m.space.fetch m.hart.pc = l.space.fetch m.hart.pc)
    (hlower : m.space.fetch (m.hart.pc + 4) = l.space.fetch (m.hart.pc + 4)) :
    ∃ m₁ m₂, m.step = (.ok .retired, m₁) ∧ m₁.step = (.ok .retired, m₂) ∧
      m₂.hart.regs.get p.dest = p.result m.hart.pc address ∧
      m₂.hart.pc = p.next m.hart.pc address ∧
      (∀ r, r ≠ p.dest → m₂.hart.regs.get r = m.hart.regs.get r) ∧ m₂.space = m.space := by
  obtain ⟨fs, hfs⟩ := grows_run (start base) pre
  have hps := p.grows_stmts symbol ((start base).run pre)
  obtain ⟨gs, hgs⟩ := grows_run (((start base).run pre).run (p.stmts symbol)) post
  have hrun : Object.ofStmts base (pre ++ p.stmts symbol ++ post) =
      ((((start base).run pre).run (p.stmts symbol)).run post).toObject := by
    simp only [Object.ofStmts, run, List.foldl_append]
  rw [hrun] at hlink hsym
  have he : ((start base).run pre).Emits fs := emits_grows (emits_start base) hfs
  have hsite := cursor_eq_of_emits he
  rw [← hpc, ← (hps.trans hgs).base_eq] at hsite
  -- The anchor that was made between the two instructions keeps its address.
  have hanchor : ((((start base).run pre).run (p.stmts symbol)).run post).symbols.address?
      (p.anchorName symbol ((start base).run pre)) = some m.hart.pc := by
    have hget := hgs.get?_symbols (p.get?_anchorName symbol ((start base).run pre))
    rw [SymbolTable.address?, hget, hpc]
    rfl
  obtain ⟨hu, hl⟩ := fetch_link (emits_grows he (hps.trans hgs)) hsite hlink hexec hsym hanchor
  have h₁ := step_upper p haligned (hupper.trans hu)
  obtain ⟨h', h₂, hdest, hnext, hkeep⟩ := step_lower p hp haligned (hlower.trans hl)
  exact ⟨_, _, h₁, h₂, hdest, hnext, hkeep, rfl⟩

theorem step_step_sample :
    ∃ l, (Object.ofStmts 0 Object.sample).link { stackSize := 0 } = .ok l ∧
      ∃ m₁ m₂, Machine.step ⟨⟨4, .empty, 0, none, 0⟩, l.space⟩ = (.ok .retired, m₁) ∧
        m₁.step = (.ok .retired, m₂) ∧ m₂.hart.regs.get .a0 = 12 ∧ m₂.hart.pc = 12 ∧
        (∀ r, r ≠ .a0 → m₂.hart.regs.get r = RegFile.empty.get r) ∧ m₂.space = l.space := by
  have ⟨l, hlink, _⟩ := Object.link_sample
  have ⟨_, ho, hend, _⟩ := Object.ofStmts_sample
  have hsym : (Object.ofStmts 0 Object.sample).symbols.address? "end" = some 12 := by
    rw [ho]
    exact hend
  let pre : List Stmt := [.j (.label "end")]
  let post : List Stmt := [.label "end", .wordOf "end"]
  have hsample : Object.sample = pre ++ (la .a0).stmts "end" ++ post := rfl
  rw [hsample] at hlink hsym ⊢
  let m : Machine := ⟨⟨4, .empty, 0, none, 0⟩, l.space⟩
  have haligned : m.hart.pc.toNat % 4 = 0 := by
    show (4 : Word).toNat % 4 = 0
    decide
  exact ⟨l, hlink, step_step_of_link (by decide) hlink rfl hsym rfl haligned rfl rfl⟩

end Far

end RV32IM
