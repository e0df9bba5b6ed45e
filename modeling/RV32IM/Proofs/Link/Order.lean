import RV32IM.Proofs.Link.Apart
import RV32IM.Proofs.Link.Exact
import RV32IM.Proofs.Memory.Journal

-- Linking in another order, and linking again. The order in which relocations are recorded does not
-- matter, nor does what the words at their sites have in place of the numbers that are filled in,
-- so an image that is linked already stays as it is.

namespace RV32IM

namespace Linked

variable {l l' l'' m m' : Linked} {relocs relocs' : Array Relocation} {rs rs' : List Relocation}

-- Of the relocations that are recorded only those of upper parts matter to the others.
theorem relocated_congr (h : Relocation.hiAt? relocs' = Relocation.hiAt? relocs) :
    Relocated relocs' rs l l' ↔ Relocated relocs rs l l' := by
  have hc : l.complaint? relocs' = l.complaint? relocs := by
    funext r
    simp only [complaint?, Relocation.fault?, Relocation.value_congr h]
  have hs r w : r.settle l.symbols relocs' w = Relocation.settle l.symbols relocs r w := by
    simp only [Relocation.settle, Relocation.value_congr h]
  constructor
  case mp =>
    intro hr
    exact ⟨hr.keeps, hr.alike, hc ▸ hr.diagnostics, by simpa only [hs] using hr.sites, hr.rest⟩
  case mpr =>
    intro hr
    exact ⟨hr.keeps, hr.alike, hc ▸ hr.diagnostics, by simpa only [hs] using hr.sites, hr.rest⟩

-- Memory ends up the same whatever the order of the relocations.
theorem Relocated.space_eq (h : Relocated relocs rs l l') (h' : Relocated relocs rs' l l'')
    (hs : l.space.WellFormed) (hp : rs'.Perm rs) : l''.space = l'.space := by
  refine AddressSpace.eq_of_byte?_eq (hs.alike h.alike) (h.alike.symm.trans h'.alike) fun a => ?_
  by_cases ha : ∃ r ∈ rs, l.space.Mapped r.site 4 ∧ a.Within r.site 4
  case pos =>
    have ⟨r, hr, hm, hw⟩ := ha
    have ⟨w, hpeek, _⟩ := AddressSpace.exists_peekWord hs hm
    rw [h.sites r hr w hpeek a hw, h'.sites r (hp.mem_iff.mpr hr) w hpeek a hw]
  case neg =>
    have hrest r (hr : r ∈ rs) (hm : l.space.Mapped r.site 4) (hw : a.Within r.site 4) : False :=
      ha ⟨r, hr, hm, hw⟩
    rw [h.rest a hrest, h'.rest a fun r hr => hrest r (hp.mem_iff.mp hr)]

theorem Relocated.diagnostics_perm (h : Relocated relocs rs l l') (h' : Relocated relocs rs' l l'')
    (hp : rs'.Perm rs) : l''.diagnostics.toList.Perm l'.diagnostics.toList := by
  rw [h.diagnostics, h'.diagnostics]
  exact (hp.filterMap _).append_left _

-- The word at a site where relocations have been applied to some of the bytes and not to others.
theorem Relocated.confines (h : Relocated relocs rs l l') (hs : l.space.WellFormed)
    (hm : l.space.Alike (fun _ => False) m.space)
    (hbytes : ∀ a, m.space.byte? a = l'.space.byte? a ∨ m.space.byte? a = l.space.byte? a)
    {r : Relocation} (hr : r ∈ rs) {w w' v : Word} (hw : l.space.peekWord r.site = .ok w)
    (hw' : m.space.peekWord r.site = .ok w') (hv : r.value l.symbols relocs = .ok v) :
    (r.kind.layout w).Confines w w' := by
  refine (Relocation.confines_fill w v r.kind).of_bytes fun k hk => ?_
  have hlim := (AddressSpace.mapped_of_peekWord hw).limit hs
  have ⟨ha, hoffset⟩ := Word.within_add_ofNat hlim hk
  have hb := AddressSpace.byte?_of_peekWord hs hw ha
  have hb' := AddressSpace.byte?_of_peekWord (hs.alike hm) hw' ha
  have hl := h.sites r hr w hw _ ha
  simp only [Relocation.settle, hv, hoffset] at hb hb' hl
  rw [← hb, ← hb', ← hl]
  exact (hbytes _).symm

-- What is filled in does not depend on what was filled in before.
theorem Relocated.again (h : Relocated relocs rs l l') (h' : Relocated relocs rs m m')
    (hs : l.space.WellFormed) (hsym : m.symbols = l.symbols)
    (hm : l.space.Alike (fun _ => False) m.space)
    (hbytes : ∀ a, m.space.byte? a = l'.space.byte? a ∨ m.space.byte? a = l.space.byte? a)
    {a : Word} (ha : m.space.byte? a = l'.space.byte? a) :
    m'.space.byte? a = l'.space.byte? a := by
  by_cases hin : ∃ r ∈ rs, m.space.Mapped r.site 4 ∧ a.Within r.site 4
  case neg =>
    rw [h'.rest a fun r hr hmap hw => hin ⟨r, hr, hmap, hw⟩, ha]
  case pos =>
    have ⟨r, hr, hmap, hwithin⟩ := hin
    have ⟨w, hw, _⟩ := AddressSpace.exists_peekWord hs (hm.mapped_iff.mp hmap)
    have ⟨w', hw', hb⟩ := AddressSpace.exists_peekWord (hs.alike hm) hmap
    have hl := h.sites r hr w hw a hwithin
    have hl' := h'.sites r hr w' hw' a hwithin
    rw [hsym] at hl'
    cases hv : r.value l.symbols relocs
    case error =>
      simp only [Relocation.settle, hv] at hl'
      rw [hl', ← hb a hwithin, ha]
    case ok v =>
      have hc := h.confines hs hm hbytes hr hw hw' hv
      simp only [Relocation.settle, hv, Relocation.fill_eq_of_confines hc] at hl hl'
      rw [hl, hl']

-- Whether the image is at the beginning of a region that holds all of it.
def Housed (l : Linked) : Prop :=
  ∃ r, l.space.regionAt? l.base = some r ∧ r.base = l.base ∧ l.imageLen ≤ r.bytes.size

theorem Housed.alike (h : l.Housed) (hk : l.Keeps l')
    (ha : l.space.Alike (fun _ => False) l'.space) : l'.Housed := by
  have ⟨r, hr, hbase, hlen⟩ := h
  have hrel := ha.locate? l.base 1
  rw [← AddressSpace.regionAt?, ← AddressSpace.regionAt?, hr] at hrel
  unfold Housed
  rw [hk.base, hk.imageLen]
  cases hl : l'.space.regionAt? l.base
  case none =>
    rw [hl] at hrel
    cases hrel
  case some r' =>
    rw [hl] at hrel
    cases hrel
    case some hrr => exact ⟨r', rfl, hrr.base.trans hbase, hrr.size ▸ hlen⟩

theorem Housed.length_image (h : l.Housed) : l.image.length = l.imageLen := by
  have ⟨r, hr, _, hlen⟩ := h
  rw [image, hr]
  simp [hlen]

theorem Housed.getElem?_image (h : l.Housed) (hs : l.space.WellFormed) {n : Nat}
    (hn : n < l.imageLen) : l.image[n]? = l.space.byte? (l.base + BitVec.ofNat 32 n) := by
  have ⟨r, hr, hbase, hlen⟩ := h
  have ⟨hmem, _⟩ := (AddressSpace.regionAt?_eq_some_iff hs).mp hr
  have ⟨hc, hb⟩ := Region.byte?_add_ofNat (hs.paged r hmem).limit (Nat.lt_of_lt_of_le hn hlen)
  rw [← hbase, AddressSpace.byte?_of_mem hs hmem hc, hb, image, hr]
  simp [hn]

-- Images are equal if memory has the same bytes where they are.
theorem Housed.image_eq (h : l.Housed) (h' : l'.Housed) (hs : l.space.WellFormed)
    (hs' : l'.space.WellFormed) (hbase : l'.base = l.base) (hlen : l'.imageLen = l.imageLen)
    (hb : ∀ n < l.imageLen, l'.space.byte? (l.base + BitVec.ofNat 32 n) =
      l.space.byte? (l.base + BitVec.ofNat 32 n)) : l'.image = l.image := by
  refine List.ext_getElem? fun n => ?_
  by_cases hn : n < l.imageLen
  case pos =>
    rw [h.getElem?_image hs hn, h'.getElem?_image hs' (hlen ▸ hn), hbase, hb n hn]
  case neg =>
    rw [List.getElem?_eq_none (by rw [h'.length_image]; omega),
      List.getElem?_eq_none (by rw [h.length_image]; omega)]

end Linked

namespace Object

variable {o : Object} {cfg : LinkConfig} {l l₀ : Linked} {image : Array Byte}

theorem housed_of_place (h : o.place cfg = .ok l₀) : l₀.Housed := by
  have ⟨hm, hbase, hlen, _⟩ := place_eq_ok h
  refine ⟨_, by rw [hbase]; exact hm.regionAt?_base o.image_padding_ne_nil, hbase.symm, ?_⟩
  simp [hlen]

-- Memory holds the image where it was placed and zeros everywhere else.
theorem describes_place (h : o.place cfg = .ok l₀) :
    Journal.Describes [(o.base, o.image.toList)] l₀.space := by
  obtain ⟨blank, loaded, hp⟩ := exists_placed h
  have hblank := AddressSpace.describes_allocate AddressSpace.wellFormed_empty
    AddressSpace.describes_empty hp.allocate
  have ⟨_, hc, he⟩ := AddressSpace.check_of_write hp.poke
  have hloaded := AddressSpace.describes_overwrite hblank
    (AddressSpace.byte?_overwrite hp.wellFormed_blank hc)
  rw [← he] at hloaded
  obtain ⟨_, hs⟩ | ⟨_, _, ha⟩ := AddressSpace.allocateStack_cases hp.stack
  case inl => exact hs ▸ hloaded
  case inr => exact AddressSpace.describes_allocate hp.wellFormed_loaded hloaded ha

-- Another image of the same size is placed at the same addresses, with the same stack.
theorem place_congr (h : o.place cfg = .ok l₀) (hsize : image.size = o.image.size) :
    ∃ space, { o with image }.place cfg = .ok { l₀ with space } ∧
      l₀.space.Alike (fun _ => False) space := by
  obtain ⟨blank, loaded, hp⟩ := exists_placed h
  have ⟨_, hc, he⟩ := AddressSpace.check_of_write hp.poke
  have hlt := AddressSpace.length_lt_of_write hp.poke
  have hlen : image.toList.length = o.image.toList.length := by simpa using hsize
  rw [← hlen] at hc hlt
  have hpoke : blank.poke o.base image.toList = .ok (blank.overwrite o.base image.toList) :=
    AddressSpace.write_of_check hlt hc
  have halike : loaded.Alike (fun _ => False) (blank.overwrite o.base image.toList) := by
    rw [he]
    exact (AddressSpace.alike_overwrite _ _ _).symm.trans (AddressSpace.alike_overwrite _ _ _)
  obtain ⟨space, hstack, hspace⟩ := halike.allocateStack hp.stack
  have hp' : { o with image }.Placed cfg blank (blank.overwrite o.base image.toList)
      { l₀ with space } :=
    { hp with
      allocate := hsize ▸ hp.allocate, poke := hpoke, stack := hstack
      imageLen := hp.imageLen.trans hsize.symm }
  exact ⟨space, hp'.place_eq, hspace⟩

-- Whether the relocations are of words that have no byte in common.
def Apart (o : Object) : Prop :=
  o.relocations.toList.Pairwise Relocation.Apart

theorem apart_ofStmts {base : Word} {stmts : List Stmt}
    (h : (ofStmts base stmts).place cfg = .ok l₀) : (ofStmts base stmts).Apart := by
  have ⟨fs, hg⟩ := (Session.start base).grows_run stmts
  have ho : (ofStmts base stmts).Emits fs := Session.emits_grows (Session.emits_start base) hg
  rw [Apart, ho.relocations]
  exact Fragment.pairwise_apart (fits_of_place ho h)

theorem relocated_of_link (ha : o.Apart) (h : o.place cfg = .ok l₀) (hl : o.link cfg = .ok l) :
    Linked.Relocated o.relocations o.relocations.toList l₀ l := by
  simp only [link, h, Except.map, Except.ok.injEq, ← Array.foldl_toList] at hl
  exact hl ▸ Linked.relocated_foldl (wellFormed_of_place h) ha

theorem housed_of_link (ha : o.Apart) (h : o.place cfg = .ok l₀) (hl : o.link cfg = .ok l) :
    l.Housed ∧ l.image.length = o.image.size := by
  have ⟨_, _, hlen, _⟩ := place_eq_ok h
  have hr := relocated_of_link ha h hl
  have hhoused := (housed_of_place h).alike hr.keeps hr.alike
  exact ⟨hhoused, by rw [hhoused.length_image, hr.keeps.imageLen, hlen]⟩

-- The linked image can be placed as the image was. Memory is as it was linked where the image is,
-- and as it was placed everywhere else.
theorem exists_place_image (ha : o.Apart) (h : o.place cfg = .ok l₀) (hl : o.link cfg = .ok l) :
    ∃ space, { o with image := l.image.toArray }.place cfg = .ok { l₀ with space } ∧
      l₀.space.Alike (fun _ => False) space ∧
      ∀ a, space.byte? a =
        if a.Within o.base o.image.size then l.space.byte? a else l₀.space.byte? a := by
  have hs := wellFormed_of_place h
  have ⟨_, hbase, hlen, _⟩ := place_eq_ok h
  have hr := relocated_of_link ha h hl
  have ⟨hhoused, himage⟩ := housed_of_link ha h hl
  have ⟨space, hplace, hspace⟩ :=
    place_congr h (show l.image.toArray.size = _ by rw [List.size_toArray, himage])
  refine ⟨space, hplace, hspace, fun a => ?_⟩
  have hj := describes_place hplace a
  simp only [Journal.byte_cons, himage] at hj
  split
  case isTrue hw =>
    have ⟨hle, hlt⟩ := hw
    rw [BitVec.le_def] at hle
    have haddr : o.base + BitVec.ofNat 32 (a.toNat - o.base.toNat) = a := by
      apply BitVec.eq_of_toNat_eq
      have := a.isLt
      simp only [BitVec.toNat_add, BitVec.toNat_ofNat]
      omega
    have hget := hhoused.getElem?_image (hs.alike hr.alike)
      (show a.toNat - o.base.toNat < l.imageLen by rw [hr.keeps.imageLen, hlen]; omega)
    rw [hr.keeps.base, hbase, haddr] at hget
    rw [if_pos hw, hget] at hj
    exact (hr.alike.symm.trans hspace).byte?_eq (hs.alike hr.alike) hj.symm
  case isFalse hw =>
    have hj₀ := describes_place h a
    simp only [Journal.byte_cons, Array.length_toList] at hj₀
    rw [if_neg hw] at hj hj₀
    exact hspace.byte?_eq hs (hj.symm.trans hj₀)

theorem link_perm (ha : o.Apart) (h : o.place cfg = .ok l₀) (hl : o.link cfg = .ok l)
    {relocations : Array Relocation} (hp : relocations.toList.Perm o.relocations.toList) :
    ∃ l', { o with relocations }.link cfg = .ok l' ∧ l'.space = l.space ∧
      l'.diagnostics.toList.Perm l.diagnostics.toList := by
  have hs := wellFormed_of_place h
  have hplace : { o with relocations }.place cfg = .ok l₀ := h
  have ha' : Apart { o with relocations } := (hp.pairwise_iff .symm).mpr ha
  have ⟨l', hl'⟩ := exists_link_of_place hplace
  have hr := relocated_of_link ha h hl
  have hr' : Linked.Relocated relocations relocations.toList l₀ l' :=
    relocated_of_link ha' hplace hl'
  rw [Linked.relocated_congr (Relocation.hiAt?_perm hp (ha.imp Relocation.Apart.site_ne))] at hr'
  exact ⟨l', hl', hr.space_eq hr' hs hp, hr.diagnostics_perm hr' hp⟩

theorem link_again (ha : o.Apart) (h : o.place cfg = .ok l₀) (hl : o.link cfg = .ok l) :
    ∃ l', { o with image := l.image.toArray }.link cfg = .ok l' ∧ l'.image = l.image ∧
      l'.diagnostics = l.diagnostics := by
  have hs := wellFormed_of_place h
  have ⟨hm, hbase, hlen, _⟩ := place_eq_ok h
  have hr := relocated_of_link ha h hl
  have ⟨hhoused, _⟩ := housed_of_link ha h hl
  have ⟨space, hplace, hspace, hbyte⟩ := exists_place_image ha h hl
  have ha' : Apart { o with image := l.image.toArray } := ha
  have ⟨l', hl'⟩ := exists_link_of_place hplace
  have hr' := relocated_of_link ha' hplace hl'
  have ⟨hhoused', _⟩ := housed_of_link ha' hplace hl'
  refine ⟨l', hl', ?_, ?_⟩
  case refine_1 =>
    refine hhoused.image_eq hhoused' (hs.alike hr.alike) ((hs.alike hspace).alike hr'.alike)
      (hr'.keeps.base.trans hr.keeps.base.symm) (hr'.keeps.imageLen.trans hr.keeps.imageLen.symm)
      fun n hn => ?_
    -- A byte of the image is as it was linked before the relocations are applied once more.
    refine hr.again hr' hs rfl hspace (fun a => ?_) ?_
    case refine_1 =>
      rw [hbyte]
      split
      case isTrue  => exact .inl rfl
      case isFalse => exact .inr rfl
    case refine_2 =>
      have hlim := hm.limit
      rw [List.length_append, Array.length_toList] at hlim
      rw [hr.keeps.imageLen, hlen] at hn
      have ⟨hw, _⟩ := Word.within_add_ofNat (show o.base.toNat + o.image.size ≤ _ by omega) hn
      rw [hr.keeps.base, hbase, hbyte, if_pos hw]
  case refine_2 =>
    have hc : ({ l₀ with space } : Linked).complaint? o.relocations =
        l₀.complaint? o.relocations := Linked.complaint?_eq hs rfl hspace
    rw [← Array.toList_inj, hr'.diagnostics, hr.diagnostics, hc]

-- Linking does not depend on the order of relocations that are apart, as those of every session
-- are, and linking what is linked already changes nothing.
theorem link_order (ho : o.Apart ∨ ∃ base stmts, o = ofStmts base stmts)
    (h : o.place cfg = .ok l₀) :
    o.Apart ∧ ∃ l, o.link cfg = .ok l ∧
      (∀ relocations : Array Relocation, relocations.toList.Perm o.relocations.toList →
        ∃ l', { o with relocations }.link cfg = .ok l' ∧ l'.space = l.space ∧
          l'.diagnostics.toList.Perm l.diagnostics.toList) ∧
      ∃ l', { o with image := l.image.toArray }.link cfg = .ok l' ∧ l'.image = l.image ∧
        l'.diagnostics = l.diagnostics := by
  have ha : o.Apart := by
    obtain ha | ⟨base, stmts, rfl⟩ := ho
    case inl => exact ha
    case inr => exact apart_ofStmts h
  have ⟨l, hl⟩ := exists_link_of_place h
  exact ⟨ha, l, hl, fun _ => link_perm ha h hl, link_again ha h hl⟩

-- The relocations the other way round.
theorem link_order_dangling :
    let o := ofStmts 0 dangling
    o.Apart ∧ (∃ l₀, o.place { stackSize := 0 } = .ok l₀) ∧
      ∃ l l', o.link { stackSize := 0 } = .ok l ∧
        { o with relocations := #[⟨4, .word, "end"⟩, ⟨0, .jump, "gone"⟩] }.link { stackSize := 0 } =
          .ok l' ∧
        l'.space = l.space ∧ l'.diagnostics.toList.Perm l.diagnostics.toList := by
  intro o
  obtain ⟨symbols, ho, _⟩ := ofStmts_dangling
  obtain ⟨l₀, hplace⟩ := exists_place_dangling 0
  have ha : o.Apart := by
    simp only [o, ho, Apart]
    decide
  have ⟨_, l, hl, hperm, _⟩ := link_order (.inl ha) hplace
  have hp : #[⟨4, .word, "end"⟩, ⟨0, .jump, "gone"⟩].toList.Perm o.relocations.toList := by
    simp only [o, ho]
    decide
  have ⟨l', hl', hspace, hd⟩ := hperm _ hp
  exact ⟨ha, ⟨l₀, hplace⟩, l, l', hl, hl', hspace, hd⟩

end Object

end RV32IM
