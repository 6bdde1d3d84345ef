import Wasabi.X86.Handler
import Wasabi.X86.Nesting
import Wasabi.X86.Transparency

/-!
# What the log tells about an exception

From the delivery of an exception to the bytes at COM1. The log determines
the vector, the error code, the registers and the place of the exception.
With an error code it tells neither the stack that was interrupted nor, on a
page fault, the cause.
-/

set_option autoImplicit false

namespace Wasabi.X86.CrashReport
open Wasabi.WordStack Wasabi.PolledOutput Wasabi.X86.Machine Wasabi.X86.InterruptEntry
open Wasabi.X86.Transparency Wasabi.X86.Nesting Wasabi.X86.Handler
open Wasabi.Serial.Port Wasabi.Serial.Console Wasabi.Qemu.Launch

/-- An exception: what is interrupted, and what the handler will look up. -/
structure Exception where
  index : ℕ
  ecode : Option Word
  sp : Word
  frame : InterrupContext
  state : State
  env : Surroundings

/-- The vectors that have a stub, which expects an error code or does not. -/
def Exception.Stubbed (x : Exception) : Prop :=
  match x.ecode with
  | none => x.index = 3 ∨ x.index = 6 ∨ x.index = 32
  | some _ => x.index = 8 ∨ x.index = 13 ∨ x.index = 14

/-- The state at the call of the handler. -/
def Exception.Calls (callee : Callee) (x : Exception) (t : State) : Prop :=
  AtCall callee (entryCode x.index) (deliver x.sp x.frame x.ecode x.state) t

/-- The handler takes the interrupted `rcx` for RIP. -/
def Exception.Dumps (x : Exception) : Prop :=
  x.index = 13 → Readable x.env (x.state.regs .rcx).toNat

/-- What the stub leaves in the record. -/
def Exception.saved (x : Exception) : GeneralRegisterContext × Word × InterrupContext :=
  match x.ecode with
  | none => (generalRegisters x.state.regs,0,x.frame)
  | some e => ({generalRegisters x.state.regs with rcx := BitVec.ofNat 64 x.index},
      BitVec.ofNat 64 x.index,
      ⟨x.state.regs .rcx,e,x.frame.rip,x.frame.cs,x.frame.rflags⟩)

/-- What the log of an exception tells. -/
structure Told (x y : Exception) : Prop where
  index : x.index = y.index
  ecode : x.ecode = y.ecode
  registers : generalRegisters x.state.regs = generalRegisters y.state.regs
  place : x.frame.rip = y.frame.rip ∧ x.frame.cs = y.frame.cs ∧ x.frame.rflags = y.frame.rflags
  interrupted : x.ecode = none → x.frame.rsp = y.frame.rsp ∧ x.frame.ss = y.frame.ss
  bytes : x.index = 13 → bytesAt x.env (x.state.regs .rcx).toNat =
    bytesAt y.env (y.state.regs .rcx).toNat
  address : x.index = 14 → x.env.cr2 = y.env.cr2

theorem stubbed_lt (x : Exception) (h : x.Stubbed) : x.index < 2^64 := by
  unfold Exception.Stubbed at h
  cases hc : x.ecode with
  | none =>
    rw [hc] at h
    simp only at h
    omega
  | some e =>
    rw [hc] at h
    simp only at h
    omega

theorem calls_saved (callee : Callee) (x : Exception) (hx : x.Stubbed) :
    ∃ t, x.Calls callee t ∧ t.regs .rsi = BitVec.ofNat 64 x.index ∧
      shown (readInfo t.memory (t.regs .rdi)) = x.saved := by
  unfold Exception.Stubbed at hx
  unfold Exception.Calls Exception.saved shown
  cases hc : x.ecode with
  | none =>
    have hcode : entryCode x.index = interruptEntrypoint (BitVec.ofNat 64 x.index) := by
      simp only [hc] at hx
      apply if_neg
      simp only [ecodeVectors, List.mem_cons, List.not_mem_nil, or_false]
      omega
    obtain ⟨e,hstub,hafter,-⟩ := stub_runs callee (BitVec.ofNat 64 x.index) x.sp x.frame x.state
    obtain ⟨t,hsave,-,-,-,hrsi,-,hgreg,herr,hctx,-,-⟩ :=
      reach_call callee x.state e _ (x.state.regs .rcx) 0 x.frame [] (by decide) hafter
    refine ⟨t,⟨[.pushImm 0,.push .rcx,.movImm .rcx (BitVec.ofNat 64 x.index)]++saveState,
      restoreState++[.iretq],?_,?_,?_⟩,hrsi,?_⟩
    · rw [hcode, interruptEntrypoint, inthandlerCommon, List.append_assoc]
    · simp [saveState]
    · rw [exec_append, hstub, Option.bind_some, hsave]
    · rw [hgreg, herr, hctx]
      rfl
  | some e =>
    have hcode : entryCode x.index = interruptEntrypointWithEcode (BitVec.ofNat 64 x.index) := by
      simp only [hc] at hx
      apply if_pos
      simp only [ecodeVectors, List.mem_cons, List.not_mem_nil, or_false]
      exact hx
    obtain ⟨t,hat,hrsi,hgreg,herr,hctx⟩ :=
      ecode_at_call callee (BitVec.ofNat 64 x.index) x.sp e x.frame x.state
    rw [hcode]
    exact ⟨t,hat,hrsi,by rw [hgreg, herr, hctx]⟩

/-- Stubs with and without an error code are of different vectors. -/
theorem stubbed_kind (x y : Exception) (hx : x.Stubbed) (hy : y.Stubbed) (h : x.index = y.index) :
    x.ecode = none ↔ y.ecode = none := by
  unfold Exception.Stubbed at hx hy
  cases hc : x.ecode with
  | none =>
    cases hd : y.ecode with
    | none => exact Iff.rfl
    | some e =>
      simp only [hc, hd] at hx hy
      omega
  | some e =>
    cases hd : y.ecode with
    | none =>
      simp only [hc, hd] at hx hy
      omega
    | some f => simp

/-- The registers are those of the record, in which `rcx` has been replaced. -/
theorem registers_iff (regs regs' : Reg → Word) (v : Word) :
    ({generalRegisters regs with rcx := v} = {generalRegisters regs' with rcx := v} ∧
      regs .rcx = regs' .rcx) ↔ generalRegisters regs = generalRegisters regs' := by
  simp only [generalRegisters, GeneralRegisterContext.mk.injEq, and_true, and_assoc]

theorem told_plain (x y : Exception) (hx : x.Stubbed) (hc : x.ecode = none) (hd : y.ecode = none)
    (info : InterrupInfo) :
    x.saved = y.saved ∧ x.index = y.index ∧ Agree x.env y.env info x.index ↔ Told x y := by
  have hindex : x.index ≠ 13 ∧ x.index ≠ 14 := by
    simp only [Exception.Stubbed, hc] at hx
    omega
  simp only [Exception.saved, hc, hd, Prod.mk.injEq, true_and]
  constructor
  · rintro ⟨⟨hregs,hframe⟩,hi,-⟩
    exact ⟨hi,hc.trans hd.symm,hregs,by simp [hframe],fun _ => by simp [hframe],
      fun h => absurd h hindex.1,fun h => absurd h hindex.2⟩
  · intro ht
    obtain ⟨hrsp,hss⟩ := ht.interrupted hc
    obtain ⟨hrip,hcs,hrflags⟩ := ht.place
    refine ⟨⟨ht.registers,?_⟩,ht.index,fun h => absurd h hindex.1,fun h => absurd h hindex.2⟩
    rw [InterrupContext.mk.injEq]
    exact ⟨hrip,hcs,hrflags,hrsp,hss⟩

theorem told_with_code (x y : Exception) (e f : Word) (hc : x.ecode = some e)
    (hd : y.ecode = some f) (info : InterrupInfo) (hinfo : info.ctx.rip = x.state.regs .rcx) :
    x.saved = y.saved ∧ x.index = y.index ∧ Agree x.env y.env info x.index ↔ Told x y := by
  simp only [Exception.saved, hc, hd, Prod.mk.injEq, InterrupContext.mk.injEq, Agree, hinfo]
  constructor
  · rintro ⟨⟨hregs,-,hrcx,he,hplace⟩,hi,hbytes,haddress⟩
    rw [hi] at hregs
    refine ⟨hi,by rw [hc, hd, he],(registers_iff _ _ _).mp ⟨hregs,hrcx⟩,hplace,
      fun h => ?_,fun h => ?_,haddress⟩
    · rw [hc] at h
      cases h
    · rw [hbytes h, hrcx]
  · intro ht
    obtain ⟨hregs,hrcx⟩ := (registers_iff _ _ (BitVec.ofNat 64 x.index)).mpr ht.registers
    have he : e = f := Option.some.inj (hc.symm.trans (ht.ecode.trans hd))
    refine ⟨⟨?_,by rw [ht.index],hrcx,he,ht.place⟩,ht.index,fun h => ?_,ht.address⟩
    · rw [hregs, ht.index]
    · rw [ht.bytes h, hrcx]

theorem told_iff (x y : Exception) (hx : x.Stubbed) (hy : y.Stubbed) (info : InterrupInfo)
    (hinfo : shown info = x.saved) :
    x.saved = y.saved ∧ x.index = y.index ∧ Agree x.env y.env info x.index ↔ Told x y := by
  by_cases hi : x.index = y.index
  · have hkind := stubbed_kind x y hx hy hi
    cases hc : x.ecode with
    | none => exact told_plain x y hx hc (hkind.mp hc) info
    | some e =>
      obtain ⟨f,hd⟩ : ∃ f, y.ecode = some f := by
        cases hd : y.ecode with
        | none =>
          rw [hkind.mpr hd] at hc
          cases hc
        | some f => exact ⟨f,rfl⟩
      apply told_with_code x y e f hc hd
      rw [Exception.saved, hc] at hinfo
      exact congrArg (fun r => r.2.2.rip) hinfo
  · exact ⟨fun h => absurd h.2.1 hi,fun h => absurd h.index hi⟩

/-- The handler on the record at `rdi`, with the vector in `rsi`. -/
def handled (fatal : List Char) (x : Exception) (t : State) : ℕ → Prog Unit :=
  handle fatal x.env (readInfo t.memory (t.regs .rdi)) (t.regs .rsi).toNat

/-- From the delivery to the end of the handler. -/
theorem calls_report (callee : Callee) (fatal : List Char) (x : Exception) (hx : x.Stubbed)
    (hd : x.Dumps) : ∃ t, x.Calls callee t ∧ shown (readInfo t.memory (t.regs .rdi)) = x.saved ∧
      Sends (handled fatal x t)
        (report fatal x.env (readInfo t.memory (t.regs .rdi)) x.index) (ending x.index) := by
  obtain ⟨t,hcalls,hrsi,hsaved⟩ := calls_saved callee x hx
  refine ⟨t,hcalls,hsaved,?_⟩
  have hindex : (t.regs .rsi).toNat = x.index := by
    rw [hrsi, BitVec.toNat_ofNat, Nat.mod_eq_of_lt (stubbed_lt x hx)]
  rw [handled, hindex]
  apply sends_report
  intro h13
  have hrip : (readInfo t.memory (t.regs .rdi)).ctx.rip = x.state.regs .rcx := by
    cases hc : x.ecode with
    | none =>
      simp only [Exception.Stubbed, hc] at hx
      omega
    | some e =>
      rw [Exception.saved, hc] at hsaved
      exact congrArg (fun r => r.2.2.rip) hsaved
  rw [hrip]
  exact hd h13

theorem ending_status (index : ℕ) (h : index ≠ 3) :
    (farewell (ending index)).findSome? exitStatus = some 5 := by
  rw [ending, if_neg h]
  rfl

/-- Two exceptions leave the same log exactly if what the log tells is the
same, and QEMU ends with 5 unless the exception is a breakpoint. -/
theorem exceptions_told_apart (callee callee' : Callee) (fatal : List Char) (hfatal : Narrow fatal)
    (x y : Exception) (hx : x.Stubbed) (hy : y.Stubbed) (hdx : x.Dumps) (hdy : y.Dumps)
    (incoming incoming' : ℕ → UInt8) (hfair : Fair incoming) (hfair' : Fair incoming') :
    ∃ t u N bus bus', x.Calls callee t ∧ y.Calls callee' u ∧
      (∀ fuel ≥ N, handled fatal x t fuel ⟨incoming,[]⟩ = .ok (ending x.index,bus) ∧
        handled fatal y u fuel ⟨incoming',[]⟩ = .ok (ending y.index,bus')) ∧
      (x.index ≠ 3 → qemuStatus bus.trace = some 5) ∧
      (received 0x3f8 bus.trace = received 0x3f8 bus'.trace ↔ Told x y) := by
  obtain ⟨t,ht,hsaved,hsends⟩ := calls_report callee fatal x hx hdx
  obtain ⟨u,hu,hsaved',hsends'⟩ := calls_report callee' fatal y hy hdy
  obtain ⟨N,bus,hrun,hlog,hstatus⟩ := sends_status _ _ _ hsends incoming hfair
  obtain ⟨M,bus',hrun',hlog',-⟩ := sends_status _ _ _ hsends' incoming' hfair'
  refine ⟨t,u,max N M,bus,bus',ht,hu,
    fun fuel hfuel => ⟨hrun fuel (by omega),hrun' fuel (by omega)⟩,?_,?_⟩
  · intro h3
    rw [hstatus, ending_status x.index h3]
  · rw [hlog, hlog', ← told_iff x y hx hy _ hsaved, ← hsaved, ← hsaved', ← report_inj fatal]
    constructor
    · intro heq
      exact bytes_inj _ _ (report_narrow fatal _ _ _ hfatal) (report_narrow fatal _ _ _ hfatal) heq
    · intro heq
      rw [heq]

/-- A protection fault with the interrupted stack at `rsp`. -/
def protection (rsp : Word) : Exception :=
  ⟨13,some 0x10,0x8004,{sampleFrame with rsp := rsp},sampleState,⟨0,fun _ => some 0x90⟩⟩

def fatalException : List Char := "fatal exception".toList

theorem fatalException_narrow : Narrow fatalException := by decide

theorem exceptions_told_apart_protection :
    ∃ t u N bus bus', (protection 0x8000).Calls clobbering t ∧
      (protection 0x7000).Calls clobbering u ∧
      (∀ fuel ≥ N, handled fatalException (protection 0x8000) t fuel ⟨fun _ => 0x20,[]⟩ =
          .ok (ending 13,bus) ∧
        handled fatalException (protection 0x7000) u fuel ⟨fun _ => 0x60,[]⟩ =
          .ok (ending 13,bus')) ∧
      (13 ≠ 3 → qemuStatus bus.trace = some 5) ∧
      (received 0x3f8 bus.trace = received 0x3f8 bus'.trace ↔
        Told (protection 0x8000) (protection 0x7000)) :=
  exceptions_told_apart clobbering clobbering fatalException fatalException_narrow
    (protection 0x8000) (protection 0x7000) (Or.inr (Or.inl rfl)) (Or.inr (Or.inl rfl))
    (fun _ => ⟨by decide,fun _ _ => rfl⟩) (fun _ => ⟨by decide,fun _ _ => rfl⟩) _ _
    (fun _ => ⟨0,by decide⟩) (fun _ => ⟨0,by decide⟩)

/-- The log does not tell the stacks apart. -/
example : Told (protection 0x8000) (protection 0x7000) :=
  ⟨rfl,rfl,rfl,⟨rfl,rfl,rfl⟩,(fun h => nomatch h),fun _ => rfl,(fun h => nomatch h)⟩

theorem causeText_low (e : Word) : causeText (e &&& 0b11111) = causeText e := by
  simp only [causeText, BitVec.and_assoc]
  rfl

theorem causeText_fin (k : Fin 32) :
    causeText (BitVec.ofNat 64 k.val) = causeText 14 ↔ k = 14 := by
  revert k
  decide

theorem causeText_iff (e : Word) : causeText e = causeText 14 ↔ e &&& 0b11111 = 0b01110 := by
  have hlt : (e &&& 0b11111).toNat < 32 := by
    rw [BitVec.toNat_and]
    exact lt_of_le_of_lt Nat.and_le_right (by decide)
  have hfin := causeText_fin ⟨_,hlt⟩
  rw [BitVec.ofNat_toNat, BitVec.setWidth_eq, causeText_low] at hfin
  rw [hfin, Fin.ext_iff, ← BitVec.toNat_inj]
  rfl

/-- Whatever its error code is, the log explains a page fault by the vector,
which is in its place: the text is right exactly if the code happens to agree
with the vector in the five bits that the text is about. -/
theorem page_fault_cause (callee : Callee) (fatal : List Char) (x : Exception) (e : Word)
    (h14 : x.index = 14) (he : x.ecode = some e) (incoming : ℕ → UInt8) (hfair : Fair incoming) :
    ∃ t N bus before, x.Calls callee t ∧
      (∀ fuel ≥ N, handled fatal x t fuel ⟨incoming,[]⟩ = .ok (.error (.exited .fail),bus)) ∧
      received 0x3f8 bus.trace = (before++lineAt 613 (causeText 14)++panicText fatal).map
        (fun c => UInt8.ofNat c.toNat) ∧
      (causeText e = causeText 14 ↔ e &&& 0b11111 = 0b01110) := by
  have hx : x.Stubbed := by
    rw [Exception.Stubbed, he]
    exact Or.inr (Or.inr h14)
  obtain ⟨t,ht,hsaved,hsends⟩ := calls_report callee fatal x hx
    (fun h13 => by rw [h14] at h13; cases h13)
  obtain ⟨N,bus,hrun,hlog,-⟩ := sends_status _ _ _ hsends incoming hfair
  have hcode : (readInfo t.memory (t.regs .rdi)).errorCode = 14 := by
    rw [Exception.saved, he, h14] at hsaved
    exact congrArg (fun r => r.2.1) hsaved
  rw [h14] at hrun hlog
  rw [report, if_neg (by decide)] at hlog
  simp only [explanation, hcode, ← List.append_assoc] at hlog
  exact ⟨t,N,bus,_,ht,hrun,hlog,causeText_iff e⟩

/-- A page fault of the kernel that reads a page which is not there. -/
def pageFault : Exception := ⟨14,some 0,0x8004,sampleFrame,sampleState,⟨0x1000,fun _ => none⟩⟩

theorem page_fault_cause_read :
    ∃ t N bus before, pageFault.Calls clobbering t ∧
      (∀ fuel ≥ N, handled fatalException pageFault t fuel ⟨fun _ => 0x20,[]⟩ =
        .ok (.error (.exited .fail),bus)) ∧
      received 0x3f8 bus.trace =
        (before++lineAt 613 (causeText 14)++panicText fatalException).map
          (fun c => UInt8.ofNat c.toNat) ∧
      (causeText 0 = causeText 14 ↔ (0 : Word) &&& 0b11111 = 0b01110) :=
  page_fault_cause clobbering fatalException pageFault 0 rfl rfl _ (fun _ => ⟨0,by decide⟩)

end Wasabi.X86.CrashReport
