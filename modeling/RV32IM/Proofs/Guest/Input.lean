import RV32IM.Proofs.Guest.Handles
import RV32IM.Proofs.Guest.Protection
import RV32IM.Proofs.Host.Streams
import RV32IM.Proofs.Os.Stream

-- What a program gets of its input. Each read gives it bytes in a row or nothing, and whatever it
-- does in between, what it was given is what the host has given of the stream.

namespace RV32IM.Guest

open Os (ReadsWithin InputStream Tracks)

variable {η σ : Type} [HostInterface η σ] {g : Guest η σ}

-- What serving a read can come to.
inductive Receives (g : Guest η σ) : Except Trap Unit × Guest η σ → Prop
  | nothing (os : Os η σ) : Receives g (.ok (), g.reply (-1) os)
  | stored {bs : List Byte} {space : AddressSpace} {os : Os η σ}
      (hlen : bs.length ≤ min (g.reg .a2).toNat Os.chunkSize)
      (hhas : space.HasBytes (g.reg .a1) bs)
      (hother : ∀ a, ¬a.Within (g.reg .a1) bs.length → space.byte? a = g.machine.space.byte? a) :
    Receives g
      (.ok (), ⟨⟨g.machine.hart.setReg .a0 (BitVec.ofNat 32 bs.length), space⟩, os⟩)
  | fault (t : Trap) (os : Os η σ) : Receives g (.error t, ⟨g.machine, os⟩)

-- The bytes that a read from a slot has given the program, as they stand in memory after it.
def delivered (i : Nat) (g : Guest η σ) : List Byte :=
  let (r, g') := g.serve
  if g.reg .a7 = 2 ∧ (g.reg .a0).toNat = i ∧ r = .ok () ∧ g'.reg .a0 ≠ -1 then
    g'.machine.space.row (g.reg .a1) (g'.reg .a0).toNat
  else []

theorem receives_serve (hw : ReadsWithin η σ) (hs : g.machine.space.WellFormed)
    (h : g.reg .a7 = 2) : Receives g g.serve := by
  rw [serve_of_read h]
  by_cases hl : g.os.Lacks (g.reg .a0)
  case pos =>
    rw [Os.read_eq_of_lacks hl]
    exact .nothing g.os
  case neg =>
    obtain ⟨x, -, hslot⟩ := Os.exists_of_not_lacks hl
    have hread := Os.reads_read hslot g.machine.space (g.reg .a1) (g.reg .a2).toNat
    generalize g.os.read g.machine.space _ _ _ = r at hread
    cases hread
    case refused => exact .nothing _
    case ended =>
      have hlen : ([] : List Byte).length ≤ min (g.reg .a2).toNat Os.chunkSize := Nat.zero_le _
      exact .stored hlen AddressSpace.hasBytes_nil fun _ _ => rfl
    case stored bs space' _ hr hstore =>
      obtain ⟨_, hc, rfl⟩ := AddressSpace.check_of_writeBytes hstore
      exact .stored (hw _ _ _ _ hr) (AddressSpace.hasBytes_overwrite hs hc) fun a ha =>
        AddressSpace.byte?_overwrite_of_not_within hc ha
    case fault e hstore =>
      obtain rfl := Bus.eq_of_writeBytes_error hstore
      exact .fault _ _

theorem delivered_of_other {i : Nat} (h : ¬(g.reg .a7 = 2 ∧ (g.reg .a0).toNat = i)) :
    g.delivered i = [] :=
  if_neg fun ⟨h₂, hi, _⟩ => h ⟨h₂, hi⟩

-- What a read that has a result has given the program.
theorem delivered_of_answer {pc w : Word} {m : Machine} {os : Os η σ} (h₂ : g.reg .a7 = 2)
    (hserve : g.serve = answer pc m os (.ok w)) :
    g.delivered (g.reg .a0).toNat = if w = -1 then [] else m.space.row (g.reg .a1) w.toNat := by
  have hw : (answer pc m os (.ok w)).snd.reg .a0 = w := RegFile.get_set_self (by decide) w
  simp only [delivered, hserve, hw, h₂, true_and]
  by_cases h : w = -1
  case pos => rw [if_pos h, if_neg fun h' => h'.right h]
  case neg =>
    rw [if_neg h, if_pos ⟨rfl, h⟩]
    rfl

-- The bytes that a read has stored are those that it gives the program. There are fewer of them
-- than would be taken for a failure.
theorem delivered_of_stored {pc : Word} {m : Machine} {os : Os η σ} {bs : List Byte}
    (h₂ : g.reg .a7 = 2) (hlen : bs.length ≤ Os.chunkSize)
    (hhas : m.space.HasBytes (g.reg .a1) bs)
    (hserve : g.serve = answer pc m os (.ok (BitVec.ofNat 32 bs.length))) :
    g.delivered (g.reg .a0).toNat = bs := by
  have hlt : bs.length < 0xFFFFFFFF := Nat.lt_of_le_of_lt hlen (by decide)
  have hnat : (BitVec.ofNat 32 bs.length).toNat = bs.length := Nat.mod_eq_of_lt (by omega)
  have hneg : BitVec.ofNat 32 bs.length ≠ -1 := fun h => by
    rw [h] at hnat
    exact absurd hnat.symm (Nat.ne_of_lt hlt)
  rw [delivered_of_answer h₂ hserve, if_neg hneg, hnat, AddressSpace.row_of_hasBytes hhas]

section Tracks

variable {x : η} {Given : List Byte → σ → Prop} {i : Nat} {c : List Byte}

variable (hw : ReadsWithin η σ) (hx : InputStream x Given)

include hw hx

-- A read from the slot of the stream takes what it gives the program.
theorem tracks_serve_read (h : Tracks x Given i c g.os) (h₂ : g.reg .a7 = 2)
    (hs : g.machine.space.WellFormed)
    (hok : (g.reg .a0).toNat = i → ∀ t, g.serve.fst ≠ .error t) :
    Tracks x Given i (c ++ g.delivered i) g.serve.snd.os := by
  have hserve := serve_of_read h₂
  by_cases hl : g.os.Lacks (g.reg .a0)
  case pos =>
    rw [Os.read_eq_of_lacks hl] at hserve
    have hnone : g.delivered i = [] := by
      by_cases hi : (g.reg .a0).toNat = i
      case pos => rw [← hi, delivered_of_answer h₂ hserve, if_pos rfl]
      case neg => exact delivered_of_other fun h => hi h.right
    rw [hnone, List.append_nil, hserve, os_answer]
    exact h
  case neg =>
  obtain ⟨y, hy, hslot⟩ := Os.exists_of_not_lacks hl
  have hread := Os.reads_read hslot g.machine.space (g.reg .a1) (g.reg .a2).toNat
  by_cases hi : (g.reg .a0).toNat = i
  case neg =>
    have hother := Os.tracks_afterRead_other hx h hy hi (g.reg .a2).toNat
    rw [delivered_of_other fun h => hi h.right, List.append_nil, hserve, os_answer]
    generalize g.os.read g.machine.space _ _ _ = r at hread
    cases hread <;> exact hother
  case pos =>
    subst hi
    have hsame := Os.tracks_afterRead_same hx h hy (g.reg .a2).toNat
    generalize g.os.read g.machine.space _ _ _ = r at hread hserve
    cases hread
    case refused hr =>
      rw [delivered_of_answer h₂ hserve, if_pos rfl, hserve, os_answer]
      rwa [hr] at hsame
    case ended hr =>
      rw [delivered_of_answer h₂ hserve, if_neg (by decide), hserve, os_answer]
      rwa [hr] at hsame
    case stored bs _ _ hr hstore =>
      obtain ⟨_, hc, rfl⟩ := AddressSpace.check_of_writeBytes hstore
      have hlen : bs.length ≤ Os.chunkSize := (hw _ _ _ _ hr).trans (Nat.min_le_right ..)
      rw [delivered_of_stored h₂ hlen (AddressSpace.hasBytes_overwrite hs hc) hserve, hserve,
        os_answer]
      rwa [hr] at hsame
    case fault e => exact absurd (congrArg Prod.fst hserve) (hok rfl _)

-- One request, whatever it asks for.
theorem tracks_serve (hs : g.machine.space.WellFormed) (h : Tracks x Given i c g.os)
    (hok : g.reg .a7 = 2 → (g.reg .a0).toNat = i → ∀ t, g.serve.fst ≠ .error t) :
    Tracks x Given i (c ++ g.delivered i) g.serve.snd.os := by
  by_cases h₂ : g.reg .a7 = 2
  case pos => exact tracks_serve_read hw hx h h₂ hs (hok h₂)
  case neg =>
    rw [delivered_of_other fun h => h₂ h.left, List.append_nil]
    by_cases h₁ : g.reg .a7 = 1
    case pos =>
      rw [serve_of_write h₁, os_answer]
      exact Os.tracks_write hx h ..
    case neg =>
    by_cases h₃ : g.reg .a7 = 3
    case pos =>
      rw [serve_of_open h₃, os_answer]
      exact Os.tracks_openFile hx h ..
    case neg =>
    by_cases h₄ : g.reg .a7 = 4
    case pos =>
      rw [serve_of_close h₄]
      exact h.close _
    case neg =>
      rw [os_serve_of_other h₁ h₂ h₃ h₄]
      exact h

theorem tracks_served {gs : List (Guest η σ)} {os os' : Os η σ} (hserved : Served gs os os')
    (hs : ∀ g ∈ gs, g.machine.space.WellFormed)
    (hok : ∀ g ∈ gs, g.reg .a7 = 2 → (g.reg .a0).toNat = i → ∀ t, g.serve.fst ≠ .error t)
    (h : Tracks x Given i c os) : Tracks x Given i (c ++ gs.flatMap (delivered i)) os' := by
  induction hserved generalizing c
  case nil => simpa using h
  case cons g gs os' _ ih =>
    have hone := tracks_serve hw hx (hs g List.mem_cons_self) h (hok g List.mem_cons_self)
    rw [List.flatMap_cons, ← List.append_assoc]
    exact ih (fun _ hg => hs _ (List.mem_cons_of_mem _ hg))
      (fun _ hg => hok _ (List.mem_cons_of_mem _ hg)) hone

end Tracks

section WellFormed

theorem wellFormed_requestsOf (hs : g.machine.space.WellFormed) {e : Event} {r : Guest η σ}
    (hr : r ∈ g.requestsOf e) : r.machine.space.WellFormed := by
  cases e
  case alter => cases hr
  case move mv =>
  cases mv
  case step => cases hr
  case serve => exact List.mem_singleton.mp hr ▸ hs
  case run =>
    obtain ⟨s, hmem, hr⟩ := List.mem_flatMap.mp hr
    have hreach : g.Reaches s := .head .resume (reaches_of_mem_stepsFor hmem)
    unfold requestOf at hr
    split at hr
    case h_1 => exact List.mem_singleton.mp hr ▸ hs.alike (hreach.alike.trans s.machine.alike_step)
    case h_2 => cases hr

theorem wellFormed_undergo (hs : g.machine.space.WellFormed) {e : Event}
    (he : ∀ m, e = .alter m → m.space.WellFormed) : (g.undergo e).machine.space.WellFormed := by
  cases e
  case alter m => exact he m rfl
  case move mv => exact hs.alike (g.reaches_act mv).alike

theorem wellFormed_requests {es : List Event} (hs : g.machine.space.WellFormed)
    (hes : ∀ m, .alter m ∈ es → m.space.WellFormed) {r : Guest η σ} (hr : r ∈ requests es g) :
    r.machine.space.WellFormed := by
  induction es generalizing g
  case nil => cases hr
  case cons e es ih =>
    cases List.mem_append.mp hr
    case inl hr => exact wellFormed_requestsOf hs hr
    case inr hr =>
      have he : ∀ m, e = .alter m → m.space.WellFormed := fun m h => hes m (h ▸ List.mem_cons_self)
      exact ih (wellFormed_undergo hs he) (fun m hm => hes m (List.mem_cons_of_mem _ hm)) hr

end WellFormed

-- Every read of a run gives the program bytes in a row or nothing, and unless a read from the slot
-- of a stream ends in a fault, those of the slot have given it all that the host gave.
theorem receives_requests {x : η} {Given : List Byte → σ → Prop} {i : Nat} {c : List Byte}
    (hw : ReadsWithin η σ) (hx : InputStream x Given) (es : List Event) (g : Guest η σ)
    (hs : g.machine.space.WellFormed) (hes : ∀ m, .alter m ∈ es → m.space.WellFormed)
    (hi : g.os.handles[i]? = some (some x))
    (hother : ∀ j, j ≠ i → g.os.handles[j]? ≠ some (some x)) (hc : Given c g.os.host) :
    (∀ r ∈ requests es g, r.reg .a7 = 2 → r.Receives r.serve) ∧
      ((∀ r ∈ requests es g, r.reg .a7 = 2 → (r.reg .a0).toNat = i → ∀ t, r.serve.fst ≠ .error t) →
        Given (c ++ (requests es g).flatMap (delivered i)) (after es g).os.host) := by
  have hall (r) (hr : r ∈ requests es g) := wellFormed_requests hs hes hr
  have htracks : Tracks x Given i c g.os :=
    ⟨hc, (Array.getElem?_eq_some_iff.mp hi).1, fun y hy => by simpa [hi, eq_comm] using hy, hother⟩
  refine ⟨fun r hr h₂ => receives_serve hw (hall r hr) h₂, fun hok => ?_⟩
  exact (tracks_served hw hx (served_requests es g) hall hok htracks).given

-- A page of memory, and a hart that has just made a call with three arguments.
def calling : Word × Word × Word × Word → Machine
  | (number, a0, a1, a2) => {
    hart := {
      pc := 0x1004
      regs := (((RegFile.empty.set .a7 number).set .a0 a0).set .a1 a1).set .a2 a2
      watchdog := 2000
      exit := none
      retired := 0 }
    space := AddressSpace.empty.performAll [.allocate 0x1000 0x1000 .readWrite] }

-- Reads that get less than they ask for, fail, and go on, with a write and a read through another
-- handle in between.
def piecemeal : List Event :=
  [(2, 0, 0x1000, 2), (1, 1, 0x1000, 5), (2, 0, 0x1FF8, 8), (2, 0, 0x1000, 8), (2, 1, 0x1000, 8),
    (2, 0, 0x1000, 1)].flatMap fun args => [.alter (calling args), .move .serve]

def listening : Guest Handle Host where
  machine := ⟨⟨0x1004, .empty, 2000, none, 0⟩, .empty⟩
  os := .start ⟨[some [1, 2, 3], none, some [4, 5]], {}, {}, .empty⟩

theorem receives_requests_piecemeal :
    let es := piecemeal
    let g := listening
    ReadsWithin Handle Host ∧
      InputStream Handle.stdin (fun c h => [1, 2, 3, 4, 5] = c ++ Os.pending h) ∧
      g.machine.space.WellFormed ∧ (∀ m, .alter m ∈ es → m.space.WellFormed) ∧
      g.os.handles[0]? = some (some .stdin) ∧
      (∀ j, j ≠ 0 → g.os.handles[j]? ≠ some (some .stdin)) ∧
      (∀ r ∈ requests es g, r.reg .a7 = 2 → r.Receives r.serve) ∧
      (requests es g).flatMap (delivered 0) = [1, 2, 3, 4] ∧
      [1, 2, 3, 4, 5] = [1, 2, 3, 4] ++ Os.pending (after es g).os.host := by
  intro es g
  have hx := Os.inputStream_stdin [1, 2, 3, 4, 5]
  have hes : ∀ m, .alter m ∈ es → m.space.WellFormed := by
    intro m hm
    obtain ⟨args, _, hm⟩ := List.mem_flatMap.mp hm
    obtain rfl : m = calling args := by simpa using hm
    exact AddressSpace.wellFormed_performAll AddressSpace.wellFormed_empty _
  have hother : ∀ j, j ≠ 0 → g.os.handles[j]? ≠ some (some .stdin) := by
    intro j hj
    match j with
    | 1 | 2 => simp [g, listening, Os.start]
    | j + 3 => simp [g, listening, Os.start]
  have hgiven : [1, 2, 3, 4, 5] = [] ++ Os.pending g.os.host := by decide +kernel
  have ⟨hreceives, hgives⟩ := receives_requests Os.readsWithin_host hx es g
    AddressSpace.wellFormed_empty hes rfl hother hgiven
  have hok : ∀ r ∈ requests es g, r.serve.fst = .ok () := by decide +kernel
  have hdelivered : (requests es g).flatMap (delivered 0) = [1, 2, 3, 4] := by decide +kernel
  have hlast := hgives fun r hr _ _ t ht => by
    rw [hok r hr] at ht
    cases ht
  rw [hdelivered] at hlast
  exact ⟨Os.readsWithin_host, hx, AddressSpace.wellFormed_empty, hes, rfl, hother, hreceives,
    hdelivered, hlast⟩

end RV32IM.Guest
