import RV32IM.Machine.Load
import RV32IM.Proofs.Elf.RoundTrip
import RV32IM.Proofs.Link.Order
import RV32IM.Source.Assemble

-- Starting what was assembled, straight from where it was linked or by way of a file. Linking fills
-- in the image and nothing else, and a stack is mapped around it wherever its bytes came from, so
-- both ways lead to the same machine.

namespace RV32IM

namespace Source

theorem State.exists_stmts_steps (st : State) (number : Nat) (ls : List Chars) :
    ∃ stmts, (st.steps number ls).session = st.session.run stmts := by
  induction ls generalizing st number
  case nil => exact ⟨[], rfl⟩
  case cons cs ls ih =>
    have ⟨stmts, h⟩ := ih (st.step number cs) (number + 1)
    have ⟨stmts', h'⟩ : ∃ stmts, (st.step number cs).session = st.session.run stmts := by
      unfold step
      dsimp only
      split
      case h_1 e _ =>
        refine ⟨(line ⟨st.constants, st.session.room⟩ cs).stmts ++ [.report (.rejected number e)],
          ?_⟩
        rw [Session.run_append]
        rfl
      case h_2 => exact ⟨_, rfl⟩
    refine ⟨stmts' ++ stmts, ?_⟩
    rw [steps, h, h', Session.run_append]

-- Whatever a text is, assembling it tells a session a list of statements.
theorem exists_stmts_assemble (source : String) (base : Word) :
    ∃ stmts, assemble source base = Object.ofStmts base stmts := by
  have ⟨stmts, h⟩ := State.exists_stmts_steps ⟨.start base, []⟩ 1 (lines source.toList)
  exact ⟨stmts, congrArg Session.toObject h⟩

end Source

-- What sessions assemble.
inductive Object.Assembled : Object → Prop
  | built (base : Word) (stmts : List Stmt) : Assembled (ofStmts base stmts)
  | text (source : String) (base : Word) : Assembled (Source.assemble source base)

theorem Object.Assembled.exists_ofStmts {o : Object} (h : o.Assembled) :
    ∃ base stmts, o = ofStmts base stmts := by
  cases h
  case built base stmts => exact ⟨base, stmts, rfl⟩
  case text source base => exact ⟨base, Source.exists_stmts_assemble source base⟩

namespace Object

variable {o : Object} {cfg : LinkConfig} {l l₀ : Linked} {fs : List Fragment}

-- The words that wait lie inside the image.
theorem within_of_emits (ho : o.Emits fs) (h : o.place cfg = .ok l₀) {r : Relocation}
    (hr : r ∈ o.relocations) {a : Word} (ha : a.Within r.site 4) :
    a.Within o.base o.image.size := by
  have hfit := fits_of_place ho h
  rw [← ho.image, Array.length_toList] at hfit
  rw [← Array.mem_toList_iff, ho.relocations] at hr
  have ⟨n, hn, hle⟩ := Fragment.site_of_mem_relocations hr
  rw [← ho.image, Array.length_toList] at hle
  have hsite : r.site.toNat = o.base.toNat + n := by
    rw [hn, Word.toNat_add_ofNat (by omega)]
  have ⟨hale, halt⟩ := ha
  rw [BitVec.le_def] at hale
  refine ⟨?_, ?_⟩
  case refine_1 =>
    rw [BitVec.le_def]
    omega
  case refine_2 => omega

-- To link an object is to place its linked image.
theorem place_image (ho : o.Emits fs) (ha : o.Apart) (h : o.place cfg = .ok l₀)
    (hl : o.link cfg = .ok l) :
    { o with image := l.image.toArray }.place cfg = .ok { l₀ with space := l.space } := by
  have hs := wellFormed_of_place h
  have hr := relocated_of_link ha h hl
  have ⟨space, hplace, hspace, hbyte⟩ := exists_place_image ha h hl
  have he : space = l.space := by
    refine AddressSpace.eq_of_byte?_eq (hs.alike hr.alike) (hr.alike.symm.trans hspace) fun a => ?_
    rw [hbyte]
    split
    case isTrue => rfl
    case isFalse hout =>
      refine (hr.rest a fun r hr _ hin => hout ?_).symm
      exact within_of_emits ho h (Array.mem_toList_iff.mp hr) hin
  rw [hplace, he]

-- What a linked object is made of: its image in pages of its own, and then the stack.
structure LoadsAs (o : Object) (cfg : LinkConfig) (space : AddressSpace) (l : Linked) : Prop where
  base     : l.base = o.base
  imageLen : l.imageLen = l.image.length
  size     : l.image.length = o.image.size
  entry    : l.entry = (o.symbols.address? cfg.entrySymbol).getD o.base
  image    : ∃ s, AddressSpace.empty.allocate o.base (max o.image.size 1) cfg.textAccess = .ok s ∧
    s.poke o.base l.image = .ok space
  stack    : space.allocateStack cfg.stackSize = .ok (l.stackTop, l.space)

theorem exists_loadsAs (ho : o.Emits fs) (ha : o.Apart) (hl : o.link cfg = .ok l) :
    ∃ space, o.LoadsAs cfg space l := by
  have ⟨l₀, h, hfold⟩ := exists_of_map_eq_ok hl
  have hr := relocated_of_link ha h hl
  have ⟨hhoused, hsize⟩ := housed_of_link ha h hl
  have ⟨hentry, htop⟩ := l₀.foldl_relocate_starts o.relocations o.relocations.toList
  rw [Array.foldl_toList, hfold] at hentry htop
  obtain ⟨blank, space, hp⟩ := exists_placed (place_image ho ha h hl)
  have halloc := hp.allocate
  simp only [List.size_toArray, hsize] at halloc
  refine ⟨space, ?_⟩
  constructor
  case base => exact hr.keeps.base.trans hp.base
  case imageLen => exact hhoused.length_image.symm
  case size => exact hsize
  case entry => exact hentry.trans hp.entry
  case image => exact ⟨blank, halloc, hp.poke⟩
  case stack =>
    rw [htop]
    exact hp.stack

-- The pages of the image do not depend on the stack.
theorem exists_place_without_stack (h : o.place cfg = .ok l) :
    ∃ l₀, o.place { cfg with stackSize := 0 } = .ok l₀ := by
  obtain ⟨_, loaded, hp⟩ := exists_placed h
  have hstack : loaded.allocateStack 0 = .ok (none, loaded) := rfl
  exact exists_place hp.allocate hp.poke hstack

theorem LoadsAs.wellFormed {space : AddressSpace} (h : o.LoadsAs cfg space l) : space.WellFormed :=
  have ⟨_, halloc, hpoke⟩ := h.image
  (AddressSpace.wellFormed_allocate AddressSpace.wellFormed_empty halloc).alike
    (AddressSpace.alike_write hpoke)

-- Without a stack the object is linked to the same image.
theorem LoadsAs.exists_link_without_stack {space : AddressSpace} (h : o.LoadsAs cfg space l)
    (ho : o.Emits fs) (ha : o.Apart) (hl : o.link cfg = .ok l) :
    ∃ l₀, o.link { cfg with stackSize := 0 } = .ok l₀ ∧ l₀.image = l.image ∧ l₀.base = l.base ∧
      l₀.entry = l.entry := by
  have ⟨_, hplace, _⟩ := exists_of_map_eq_ok hl
  have ⟨_, hplace₀⟩ := exists_place_without_stack hplace
  have ⟨l₀, hl₀⟩ := exists_link_of_place hplace₀
  have ⟨_, h₀⟩ := exists_loadsAs ho ha hl₀
  have himage : l₀.image = l.image := (link_eq_ok ho hl₀).left.trans (link_eq_ok ho hl).left.symm
  exact ⟨l₀, hl₀, himage, h₀.base.trans h.base.symm, h₀.entry.trans h.entry.symm⟩

-- Loading the linked image from a file puts it into the same pages.
theorem LoadsAs.load_single {space : AddressSpace} (h : o.LoadsAs cfg space l) (entry : Word) :
    (Elf.Image.single l.image l.base entry cfg.textAccess).load .empty = (.ok (), space) := by
  have ⟨s, halloc, hpoke⟩ := h.image
  have hf := AddressSpace.free_of_allocate halloc
  have hlt : ¬max o.image.size 1 ≥ addressLimit := by
    have := le_pageCeil (max o.image.size 1)
    have := hf.rounds
    omega
  have hbase : BitVec.ofNat 32 (o.base.toNat / pageSize * pageSize) = o.base := by
    rw [Nat.div_mul_cancel (Nat.dvd_of_mod_eq_zero hf.aligned), BitVec.ofNat_toNat,
      BitVec.setWidth_eq]
  simp only [Elf.Image.load, Elf.Image.single, Elf.Image.loadSegments, Elf.Image.loadSegment,
    Elf.Image.regionBase, h.base, h.size, Nat.max_self, hf.aligned, Nat.add_zero, hlt, if_false,
    hbase, halloc, hpoke, bind, Except.bind]

-- The file of a linked image is read back.
theorem LoadsAs.read_write_single {space : AddressSpace} (h : o.LoadsAs cfg space l) (entry : Word)
    (ha : Access.all.allows cfg.textAccess) :
    let img := Elf.Image.single l.image l.base entry cfg.textAccess
    Elf.read img.write = .ok img := by
  intro img
  have ⟨s, halloc, hpoke⟩ := h.image
  have hf := AddressSpace.free_of_allocate halloc
  have hle := le_pageCeil (max o.image.size 1)
  have hlimit := hf.limit
  have hrounds := hf.rounds
  refine Elf.Image.read_write_of_lt ?_ ?_ (show 1 < 65536 by decide)
  case refine_1 =>
    refine List.forall_mem_singleton.mpr ⟨⟨Nat.le_refl _, ?_⟩, ?_, ha⟩
    all_goals
      simp only [h.base, h.size]
      omega
  case refine_2 =>
    refine List.forall_mem_singleton.mpr ?_
    have hlt := Elf.Image.alignedOffset_lt img.headersEnd l.base
    have hend : img.headersEnd = 84 := rfl
    have hsize : 84 + pageSize < addressLimit := by
      rw [pageSize, addressLimit_eq]
      decide
    exact Nat.lt_trans (hend ▸ hlt) hsize

-- Both linked machines map the image in the same way.
theorem LoadsAs.exists_region {space : AddressSpace} (h : o.LoadsAs cfg space l) :
    ∃ r, space.regionAt? l.base = some r ∧ l.space.regionAt? l.base = some r ∧ r.base = l.base ∧
      r.access = cfg.textAccess ∧ (r.bytes.extract 0 l.imageLen).toList = l.image := by
  have ⟨s, halloc, hpoke⟩ := h.image
  have ⟨_, hpos⟩ := o.length_image_le
  have hle := le_pageCeil (max o.image.size 1)
  have hlen : l.image.length ≤ pageCeil (max o.image.size 1) := by
    have := h.size
    omega
  have ⟨_, hp, hm⟩ := (AddressSpace.maps_allocate halloc).poke_zeros hpos hlen
  cases hpoke.symm.trans hp
  have hne : l.image ++ List.replicate (pageCeil (max o.image.size 1) - l.image.length) 0 ≠ [] := by
    rw [← List.length_pos_iff, List.length_append, List.length_replicate]
    omega
  rw [h.base]
  refine ⟨_, hm.regionAt?_base hne, (hm.allocateStack hne h.stack).regionAt?_base hne, rfl, rfl, ?_⟩
  simp [h.imageLen]

end Object

-- How a machine that was started from a file compares to one that was started from memory.
structure Machine.BootsLike (m m' : Machine) (l : Linked) (access : Access) (stackSize : Nat)
    (initialSp : Option Word) : Prop where
  hart  : m.hart = m'.hart
  image : ∃ r, m.space.regionAt? l.base = some r ∧ m'.space.regionAt? l.base = some r ∧
    r.base = l.base ∧ r.access = access ∧ (r.bytes.extract 0 l.imageLen).toList = l.image
  same  : stackSize = 0 ∨ initialSp = none → m = m'
  stack : stackSize ≠ 0 → initialSp ≠ none → ∃ bottom : Word,
    l.stackTop = some (bottom + BitVec.ofNat 32 stackSize) ∧ bottom ∉ m.space.keys ∧
      m'.space = m.space.insert bottom
        ⟨bottom, .readWrite, Array.replicate (pageCeil stackSize) 0⟩

-- The file of a linked image starts as the image itself does.
theorem Object.LoadsAs.exists_ofElf {o : Object} {link : LinkConfig} {space : AddressSpace}
    {l : Linked} (h : o.LoadsAs link space l) (hart : HartConfig) :
    ∃ m,
      Machine.ofElf (.single l.image l.base l.entry link.textAccess) hart link.stackSize = .ok m ∧
      m.BootsLike (.ofLinked l hart) l link.textAccess link.stackSize hart.initialSp := by
  have ⟨r, hr, hr', hbase, haccess, hbytes⟩ := h.exists_region
  have hload := h.load_single l.entry
  cases hsp : hart.initialSp
  case none =>
    have hlinked : Machine.ofLinked l hart =
        .start l.space l.entry { hart with initialSp := l.stackTop } := by
      rw [Machine.ofLinked, hsp]
      rfl
    refine ⟨.ofLinked l hart, ?_, ?_⟩
    case refine_1 =>
      simp only [Machine.ofElf, hload, hsp, h.stack, hlinked, bind, Except.bind]
      rfl
    case refine_2 =>
      exact ⟨rfl, ⟨r, hr', hr', hbase, haccess, hbytes⟩, fun _ => rfl, fun _ hn => absurd rfl hn⟩
  case some sp =>
    have hlinked : Machine.ofLinked l hart = .start l.space l.entry hart := by
      rw [Machine.ofLinked, hsp]
      cases hart
      cases hsp
      rfl
    refine ⟨.start space l.entry hart, ?_, ?_⟩
    case refine_1 =>
      simp only [Machine.ofElf, hload, hsp, bind, Except.bind]
      rfl
    case refine_2 =>
      rw [hlinked]
      constructor
      case hart => rfl
      case image => exact ⟨r, hr, hr', hbase, haccess, hbytes⟩
      case same =>
        intro hz
        have hstack := h.stack
        rw [hz.resolve_right nofun] at hstack
        have hspace : space = l.space := congrArg Prod.snd (Except.ok.inj hstack)
        rw [hspace]
      case stack =>
        intro hz _
        have ⟨bottom, htop, _, hkey, hspace⟩ :=
          AddressSpace.gap_of_allocateStack h.wellFormed hz h.stack
        exact ⟨bottom, htop, hkey, hspace⟩

-- Running a linked object and running the file of it are one and the same, except that the file has
-- no stack if the stack pointer is already settled.
theorem Machine.ofElf_of_link {o : Object} (ho : o.Assembled) {link : LinkConfig}
    (ha : Access.all.allows link.textAccess) {l : Linked} (hl : o.link link = .ok l)
    (hart : HartConfig) :
    ∃ l₀ img m, o.link { link with stackSize := 0 } = .ok l₀ ∧
      Elf.read (Elf.Image.write (.single l₀.image l₀.base l₀.entry link.textAccess)) = .ok img ∧
      ofElf img hart link.stackSize = .ok m ∧
      m.BootsLike (ofLinked l hart) l link.textAccess link.stackSize hart.initialSp := by
  obtain ⟨base, stmts, rfl⟩ := ho.exists_ofStmts
  have ⟨_, hplace, _⟩ := exists_of_map_eq_ok hl
  have hapart := Object.apart_ofStmts hplace
  have ⟨fs, hg⟩ := (Session.start base).grows_run stmts
  have hfs : (Object.ofStmts base stmts).Emits fs :=
    Session.emits_grows (Session.emits_start base) hg
  have ⟨space, h⟩ := Object.exists_loadsAs hfs hapart hl
  have ⟨l₀, hl₀, himage, hbase, hentry⟩ := h.exists_link_without_stack hfs hapart hl
  have ⟨m, hm, hboots⟩ := h.exists_ofElf hart
  rw [← himage, ← hbase, ← hentry] at hm
  have hread := h.read_write_single l₀.entry ha
  rw [← himage, ← hbase] at hread
  exact ⟨l₀, _, m, hl₀, hread, hm, hboots⟩

-- Code that jumps to a symbol that nothing defines.
def astray : Object := .ofStmts 0x1000 [.nop, .j (.label "gone"), .bare .ecall]

theorem exists_link_astray : ∃ l, astray.link {} = .ok l := by
  have h : (astray.place {}).toBool = true := by decide +kernel
  cases hp : astray.place {}
  case error e => cases hp ▸ h
  case ok l => exact Object.exists_link_of_place hp

theorem Machine.ofElf_of_link_astray :
    ∃ l l₀ img m, astray.link {} = .ok l ∧ astray.link { stackSize := 0 } = .ok l₀ ∧
      Elf.read (Elf.Image.write (.single l₀.image l₀.base l₀.entry .all)) = .ok img ∧
      ofElf img {} 0x10000 = .ok m ∧ m.BootsLike (ofLinked l {}) l .all 0x10000 none :=
  have ⟨l, hl⟩ := exists_link_astray
  have ⟨l₀, img, m, h⟩ := ofElf_of_link (.built 0x1000 _) (by decide) hl {}
  ⟨l, l₀, img, m, hl, h⟩

end RV32IM
