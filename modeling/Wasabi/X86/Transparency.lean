import Wasabi.X86.InterruptEntry

/-!
# What the handler sees and what the interrupted code gets back

Without an error code the handler sees exactly the interrupted state, and the
interrupted code gets all of it back. With an error code the two extra words
shift every later field, so the handler sees the truth only where all of the
words concerned happen to be equal.
-/

set_option autoImplicit false

namespace Wasabi.X86.Transparency
open Wasabi.WordStack Wasabi.X86.Machine Wasabi.X86.InterruptEntry

/-- The state at the call, from what a stub leaves behind. -/
theorem reach_call (callee : Callee) (s e : State) (index c er : Word) (f : InterrupContext)
    (rest : List Word) (hrest : rest.length < 900)
    (h : AfterStub s e index ([c,er,f.rip,f.cs,f.rflags,f.rsp,f.ss]++rest)) :
    ∃ t, exec callee saveState e = some t ∧ slot (t.regs .rdi) 79 = e.regs .rsp ∧
      t.regs .rbp = t.regs .rdi ∧ t.regs .rsp = t.regs .rdi ∧ t.regs .rsi = index ∧
      16 ∣ (t.regs .rdi).toNat ∧
      (readInfo t.memory (t.regs .rdi)).greg = {generalRegisters s.regs with rcx := c} ∧
      (readInfo t.memory (t.regs .rdi)).errorCode = er ∧
      (readInfo t.memory (t.regs .rdi)).ctx = f ∧
      (∀ k : Fin 58, (readInfo t.memory (t.regs .rdi)).fpuContext (k.castLE (by decide)) = s.fpu k) ∧
      Holds t.memory (slot (t.regs .rdi) 65)
        (popOrder.map s.regs++([c,er,f.rip,f.cs,f.rflags,f.rsp,f.ss]++rest)) := by
  obtain ⟨t,hexec,hslot,hrbp,hrsp,hrsi,h16,hfpu,hhold⟩ := save_state callee e _ h.stack h.aligned
    (by simp only [List.length_append, List.length_cons, List.length_nil]; omega)
  have hsame : popOrder.map e.regs = popOrder.map s.regs := by
    apply List.map_congr_left
    intro r hr
    apply h.others
    · rintro rfl
      exact absurd hr (by decide)
    · rintro rfl
      exact absurd hr (by decide)
  rw [hsame] at hhold
  have hfields := hhold
  rw [← List.append_assoc, holds_append] at hfields
  obtain ⟨hgreg,herr,hctx⟩ := info_fields t.memory (t.regs .rdi) s.regs c er f hfields.1
  refine ⟨t,hexec,hslot,hrbp,hrsp,hrsi.trans h.index,h16,hgreg,herr,hctx,?_,hhold⟩
  intro k
  exact (hfpu k).trans (congrFun h.fpu k)

theorem frame_held (s : State) (f : InterrupContext)
    (h : Stack s [f.rip,f.cs,f.rflags,f.rsp,f.ss]) : s.frame = f := by
  have hh := h.holds
  rw [← slot_zero (s.regs .rsp)] at hh
  simp only [Holds, slot_next, Nat.reduceAdd, and_true] at hh
  obtain ⟨h0,h1,h2,h3,h4⟩ := hh
  simp only [State.frame, h0, h1, h2, h3, h4]

/-- Without an error code: what is at `rdi` when the handler is called, and
what the registers, the FPU and the stack are when it has returned. -/
theorem entry_transparent (callee : Callee) (index sp : Word) (frame : InterrupContext) (s : State)
    (hsys : ∀ t, AtCall callee (interruptEntrypoint index) (deliver sp frame none s) t →
      SysVAt callee (t.pushed callee.returnAddress)) :
    ∃ t u, AtCall callee (interruptEntrypoint index) (deliver sp frame none s) t ∧
      (readInfo t.memory (t.regs .rdi)).errorCode = 0 ∧
      (readInfo t.memory (t.regs .rdi)).ctx = frame ∧
      (readInfo t.memory (t.regs .rdi)).greg = generalRegisters s.regs ∧
      (∀ k : Fin 58, (readInfo t.memory (t.regs .rdi)).fpuContext (k.castLE (by decide)) = s.fpu k) ∧
      t.regs .rsi = index ∧ 16 ∣ (t.regs .rdi).toNat ∧
      AtIretq callee (interruptEntrypoint index) (deliver sp frame none s) u ∧
      (∀ r, r ≠ .rsp → u.regs r = s.regs r) ∧ u.fpu = s.fpu ∧
      u.regs .rsp = (deliver sp frame none s).regs .rsp ∧ u.frame = frame := by
  obtain ⟨e,hstub,hafter,hsp⟩ := stub_runs callee index sp frame s
  obtain ⟨t,hsave,hslot,hrbp,hrsp,hrsi,h16,hgreg,herr,hctx,hfpu,hhold⟩ :=
    reach_call callee s e index (s.regs .rcx) 0 frame [] (by decide) hafter
  have hbefore : exec callee ([.pushImm 0,.push .rcx,.movImm .rcx index]++saveState)
      (deliver sp frame none s) = some t := by
    rw [exec_append, hstub, Option.bind_some, hsave]
  have hat : AtCall callee (interruptEntrypoint index) (deliver sp frame none s) t := by
    refine ⟨_,restoreState++[.iretq],?_,by simp [saveState],hbefore⟩
    rw [interruptEntrypoint, inthandlerCommon, List.append_assoc]
  obtain ⟨u0,hcall,hrbp0,hkeep⟩ := call_keeps callee t _ (hsys t hat) rfl hrbp hrsp h16
  have hhold0 : Holds u0.memory (slot (u0.regs .rbp) 65) (popOrder.map s.regs++
      (s.regs .rcx::0::[frame.rip,frame.cs,frame.rflags,frame.rsp,frame.ss])) := by
    rw [hrbp0]
    apply holds_congr _ _ _ _ _ hhold
    intro i hi
    rw [slot_add]
    exact hkeep _ (by simp [popOrder] at hi; unfold infoWords; omega)
  obtain ⟨u,hrestore,hvals,hrcx,hursp,-,hst,hufpu⟩ := restore_state callee u0
    (popOrder.map s.regs) _ _ _ (by rw [hrbp0]; exact h16) rfl hhold0
  have hafterCall : exec callee (([.pushImm 0,.push .rcx,.movImm .rcx index]++saveState)++
      (.call::restoreState)) (deliver sp frame none s) = some u := by
    rw [exec_append, hbefore, Option.bind_some, exec_cons, hcall, Option.bind_some, hrestore]
  refine ⟨t,u,hat,herr,hctx,hgreg,hfpu,hrsi,h16,⟨_,?_,hafterCall⟩,?_,?_,?_,
    frame_held u frame hst⟩
  · simp only [interruptEntrypoint, inthandlerCommon, List.append_assoc, List.cons_append]
  · intro r hr
    by_cases hc : r = .rcx
    · rw [hc, hrcx]
    · have hmem : r ∈ popOrder := by cases r <;> simp [popOrder] at hr hc ⊢
      exact List.map_inj_left.mp hvals r hmem
  · rw [hufpu, hrbp0]
    funext k
    rw [hkeep k (by unfold infoWords; omega)]
    exact hfpu k
  · rw [hursp, hrbp0, ← hsp, ← hslot, slot_add]

/-- A handler that overwrites two registers. -/
def clobbering : Callee :=
  ⟨0x1000,fun s => ((s.setReg .rax 0).setReg .rdi 0).setReg .rsp (s.regs .rsp+8)⟩

theorem clobbering_sysV (s : State) : SysVAt clobbering s :=
  ⟨by simp [clobbering],by simp [clobbering],fun k _ => by simp [clobbering]⟩

def sampleState : State := ⟨fun _ => 7,fun _ => 0,fun _ => 1,none⟩

def sampleFrame : InterrupContext := ⟨0x4000,8,0x202,0x8000,0x10⟩

theorem entry_transparent_breakpoint :
    ∃ t u, AtCall clobbering (interruptEntrypoint 3) (deliver 0x8004 sampleFrame none sampleState) t ∧
      (readInfo t.memory (t.regs .rdi)).errorCode = 0 ∧
      (readInfo t.memory (t.regs .rdi)).ctx = sampleFrame ∧
      (readInfo t.memory (t.regs .rdi)).greg = generalRegisters sampleState.regs ∧
      (∀ k : Fin 58, (readInfo t.memory (t.regs .rdi)).fpuContext (k.castLE (by decide)) =
        sampleState.fpu k) ∧
      t.regs .rsi = 3 ∧ 16 ∣ (t.regs .rdi).toNat ∧
      AtIretq clobbering (interruptEntrypoint 3) (deliver 0x8004 sampleFrame none sampleState) u ∧
      (∀ r, r ≠ .rsp → u.regs r = sampleState.regs r) ∧ u.fpu = sampleState.fpu ∧
      u.regs .rsp = (deliver 0x8004 sampleFrame none sampleState).regs .rsp ∧
      u.frame = sampleFrame :=
  entry_transparent clobbering 3 0x8004 sampleFrame sampleState (fun _ _ => clobbering_sysV _)

/-- With an error code the words of the frame arrive one field late, behind
the vector number and the interrupted `rcx`. -/
theorem ecode_at_call (callee : Callee) (index sp ecode : Word) (frame : InterrupContext)
    (s : State) :
    ∃ t, AtCall callee (interruptEntrypointWithEcode index) (deliver sp frame (some ecode) s) t ∧
      t.regs .rsi = index ∧
      (readInfo t.memory (t.regs .rdi)).greg = {generalRegisters s.regs with rcx := index} ∧
      (readInfo t.memory (t.regs .rdi)).errorCode = index ∧
      (readInfo t.memory (t.regs .rdi)).ctx =
        ⟨s.regs .rcx,ecode,frame.rip,frame.cs,frame.rflags⟩ := by
  obtain ⟨e,hstub,hafter⟩ := stub_with_ecode_runs callee index sp ecode frame s
  obtain ⟨t,hsave,-,-,-,hrsi,-,hgreg,herr,hctx,-,-⟩ := reach_call callee s e index index index
    ⟨s.regs .rcx,ecode,frame.rip,frame.cs,frame.rflags⟩ [frame.rsp,frame.ss] (by simp) hafter
  refine ⟨t,⟨[.push .rcx,.movImm .rcx index,.push .rcx,.push .rcx,.movImm .rcx index]++saveState,
    restoreState++[.iretq],?_,by simp [saveState],?_⟩,hrsi,hgreg,herr,hctx⟩
  · rw [interruptEntrypointWithEcode, inthandlerCommon, List.append_assoc]
  · rw [exec_append, hstub, Option.bind_some, hsave]

/-- What the handler is told about an exception with an error code. -/
structure Faithful (index ecode : Word) (frame : InterrupContext) (s t : State) : Prop where
  errorCode : (readInfo t.memory (t.regs .rdi)).errorCode = ecode
  ctx : (readInfo t.memory (t.regs .rdi)).ctx = frame
  greg : (readInfo t.memory (t.regs .rdi)).greg = generalRegisters s.regs
  vector : t.regs .rsi = index

/-- The report is faithful exactly if the error code, the interrupted `rcx`
and all words of the frame equal the vector number. -/
theorem ecode_faithful_iff (callee : Callee) (index sp ecode : Word) (frame : InterrupContext)
    (s : State) :
    ∃ t, AtCall callee (interruptEntrypointWithEcode index) (deliver sp frame (some ecode) s) t ∧
      (Faithful index ecode frame s t ↔ ecode = index ∧ s.regs .rcx = index ∧
        frame = ⟨index,index,index,index,index⟩) := by
  obtain ⟨t,hcall,hrsi,hgreg,herr,hctx⟩ := ecode_at_call callee index sp ecode frame s
  refine ⟨t,hcall,?_⟩
  constructor
  · rintro ⟨h1,h2,h3,-⟩
    rw [herr] at h1
    rw [hctx] at h2
    rw [hgreg] at h3
    have hrcx : index = s.regs .rcx := congrArg GeneralRegisterContext.rcx h3
    obtain ⟨rip,cs,rflags,rsp,ss⟩ := frame
    simp only [InterrupContext.mk.injEq] at h2 ⊢
    obtain ⟨hrip,hcs,hrflags,hrsp,hss⟩ := h2
    refine ⟨h1.symm,hrcx.symm,?_,?_,?_,?_,?_⟩
    · rw [← hrip, hrcx]
    · rw [← hcs, h1]
    · rw [← hrflags, ← hrip, hrcx]
    · rw [← hrsp, ← hcs, h1]
    · rw [← hss, ← hrflags, ← hrip, hrcx]
  · rintro ⟨rfl,hrcx,rfl⟩
    refine ⟨herr,by rw [hctx, hrcx],?_,hrsi⟩
    rw [hgreg, ← hrcx]
    rfl

/-- A page fault on a read of a missing page reports the vector number as its
error code. -/
theorem page_fault_misreported :
    ∃ t, AtCall clobbering (interruptEntrypointWithEcode 14)
        (deliver 0x8004 sampleFrame (some 0) sampleState) t ∧
      (readInfo t.memory (t.regs .rdi)).errorCode = 14 ∧
      ¬ Faithful 14 0 sampleFrame sampleState t := by
  obtain ⟨t,hcall,-,-,herr,-⟩ := ecode_at_call clobbering 14 0x8004 0 sampleFrame sampleState
  refine ⟨t,hcall,herr,?_⟩
  intro h
  rw [h.errorCode] at herr
  exact absurd herr (by decide)

end Wasabi.X86.Transparency
