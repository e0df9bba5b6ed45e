import RV32IM.Proofs.Guest.Handles
import RV32IM.Proofs.Host.Streams

-- What a program outputs. A write sends the bytes that memory has, in order and each of them once,
-- up to the first chunk that cannot be read or that the host refuses.

namespace RV32IM.Guest

variable {η σ : Type} [HostInterface η σ] {received : η → σ → List Byte} {g : Guest η σ}

-- Every write to an open handle outputs what memory has, and leaves memory as it is.
theorem outputs_serve (hw : Os.WritesWhole received) (h : g.reg .a7 = 1)
    (ho : g.os.isOpen (g.reg .a0)) (hs : g.machine.space.WellFormed)
    (hlen : (g.reg .a2).toNat < 2 ^ 31) :
    let r := g.os.write g.machine.space (g.reg .a0) (g.reg .a1) (g.reg .a2).toNat
    g.serve = answer (g.machine.hart.pc - 4) g.machine r.2 r.1 ∧
      g.serve.snd.machine.space = g.machine.space ∧
      g.os.Outputs received g.machine.space (g.reg .a0).toNat (g.reg .a1) (g.reg .a2).toNat r := by
  intro r
  have hserve : g.serve = answer (g.machine.hart.pc - 4) g.machine r.2 r.1 := serve_of_write h
  refine ⟨hserve, by rw [hserve, space_answer], ?_⟩
  obtain ⟨x, hx, hslot⟩ := Os.exists_of_not_lacks (Os.not_lacks_of_isOpen ho)
  simp only [r, Os.write, hslot]
  exact Os.outputs_writeFrom hw hs hx hlen

-- A page of memory that a program may read and write, and its last byte.
def page : List Request := [
  .allocate 0x1000 0x1000 .readWrite,
  .store 0x1FFF [7]]

-- A program that writes a page to its standard output, and one byte more than it has.
def spilling : Guest Handle Host where
  machine.hart.pc := 0x1004
  machine.hart.regs :=
    (((RegFile.empty.set .a7 1).set .a0 1).set .a1 0x1000).set .a2 0x1001
  machine.hart.watchdog := 2000
  machine.hart.exit := none
  machine.hart.retired := 0
  machine.space := AddressSpace.empty.performAll page
  os := .start ⟨[], {}, {}, .empty⟩

theorem outputs_serve_spilling :
    let g := spilling
    Os.WritesWhole Os.received ∧ g.reg .a7 = 1 ∧ g.os.isOpen (g.reg .a0) ∧
      g.machine.space.WellFormed ∧ (g.reg .a2).toNat < 2 ^ 31 ∧
      g.serve.fst = .error (.memory 0x1000 (.unmapped 0x2000 1)) ∧
      g.serve.snd.machine.space = g.machine.space ∧
      ∃ k bs, Os.chunkSize * k < 0x1001 ∧ bs.length = Os.chunkSize * k ∧
        g.machine.space.HasBytes 0x1000 bs ∧ g.serve.snd.os.sent Os.received 1 = bs := by
  intro g
  have hs : g.machine.space.WellFormed := by
    simp only [g, spilling]
    exact AddressSpace.wellFormed_performAll AddressSpace.wellFormed_empty page
  have h : g.reg .a7 = 1 := by decide +kernel
  have ho : g.os.isOpen (g.reg .a0) := by decide +kernel
  have hlen : (g.reg .a2).toNat < 2 ^ 31 := by decide +kernel
  have hr : (g.os.write g.machine.space (g.reg .a0) (g.reg .a1) (g.reg .a2).toNat).1 =
      .error (.unmapped 0x2000 1) := by
    decide +kernel
  have hstart : g.os.sent Os.received (g.reg .a0).toNat = [] := by decide +kernel
  have ⟨hserve, hspace, hout⟩ := outputs_serve Os.writesWhole_host h ho hs hlen
  have ⟨k, bs, hk, hbs, hhas, hsent⟩ := hout.part (.inr ⟨_, hr⟩)
  rw [hstart, List.nil_append] at hsent
  refine ⟨Os.writesWhole_host, h, ho, hs, hlen, by decide +kernel, hspace, k, bs, hk, hbs, hhas,
    ?_⟩
  rw [hserve, os_answer]
  exact hsent

end RV32IM.Guest
