import Wasabi.X86.CrashReport

/-!
# A breakpoint in the kernel

The kernel raises a breakpoint itself. The processor looks it up in the tables
on the heap, the stub saves the registers on a stack that is a box of the
heap, and the handler prints and returns. The kernel then continues with all
of its registers, and of the heap only bytes of that stack have changed.
-/

set_option autoImplicit false

namespace Wasabi.X86.Breakpoint
open Wasabi.Rust Wasabi.Outcome Wasabi.ObjectMemory Wasabi.RawBytes Wasabi.LittleEndian
open Wasabi.WordStack Wasabi.Tiling Wasabi.HexText
open Wasabi.Allocator.FirstFit Wasabi.Allocator.Provide Wasabi.Allocator.Runs
open Wasabi.Allocator.Boxes
open Wasabi.X86.Machine Wasabi.X86.InterruptEntry Wasabi.X86.Transparency Wasabi.X86.Nesting
open Wasabi.X86.Segmentation Wasabi.X86.Exceptions Wasabi.X86.Handler
open Wasabi.Serial.Console Wasabi.Qemu.Launch

/-- The words of the memory, as the entry code reads them. -/
def wordsOf (m : HeaderMemory) : WordMemory := fun a =>
  BitVec.ofNat 64 ((readWord m a.toNat).getD 0)

/-- The memory with the words that have changed. -/
def writeBack (before after : WordMemory) (m : HeaderMemory) : HeaderMemory := fun x =>
  let a := BitVec.ofNat 64 (x/8*8)
  if x < 2^64 ∧ after a ≠ before a then .raw ((encode 8 (after a).toNat).getD (x%8) 0) else m x

/-- The registers at an interrupt. The next instruction is at `rip`. -/
structure Interrupted where
  regs : Reg → Word
  fpu : Fin 58 → Word
  rip : Word
  rflags : Word

def Interrupted.frame (i : Interrupted) (cpu : Cpu) : InterrupContext :=
  ⟨i.rip,BitVec.ofNat 64 cpu.cs,i.rflags,i.regs .rsp,BitVec.ofNat 64 cpu.ss⟩

def notCall : Instr → Bool
  | .call => false
  | _ => true

/-- An interrupt of the kernel without an error code, with the state in which
the interrupted code continues. The callee is the handler as far as the machine
goes, and what it prints comes first. -/
def interrupt (entry : EntryPoints) (callee : Callee) (fatal unexpected : List Char) (cr2 : Word)
    (software : Bool) (v : ℕ) (i : Interrupted) (k : Kernel) (fuel : ℕ) :
    Prog (Kernel × State) := do
  let d ← observe (fun _ => deref (dispatch k.cpu k.memory (i.regs .rsp).toNat 0 software v))
  match ← observe (fun _ => deref (routineAt entry d.handler)) with
  | .intHandlerUnimplemented => intHandlerUnimplemented unexpected
  | .stub code =>
    let words := wordsOf k.memory
    let s := deliver (BitVec.ofNat 64 d.sp) (i.frame k.cpu) none ⟨i.regs,words,i.fpu,none⟩
    let t ← observe (fun _ => deref (exec callee (code.takeWhile notCall) s))
    inthandler fatal ⟨cr2,peek k.memory⟩ (readInfo t.memory (t.regs .rdi)) (t.regs .rsi).toNat fuel
    let u ← observe (fun _ => deref (exec callee (code.dropWhile notCall) t))
    pure (k.setMemory (writeBack words u.memory k.memory),u)

/-- `int3`. -/
def triggerDebugInterrupt (entry : EntryPoints) (callee : Callee) (fatal unexpected : List Char)
    (cr2 : Word) (i : Interrupted) (k : Kernel) (fuel : ℕ) : Prog (Kernel × State) :=
  interrupt entry callee fatal unexpected cr2 true 3 i k fuel

/-- The handler keeps the calling convention wherever such an entry calls it. -/
def KeepsConvention (callee : Callee) : Prop :=
  ∀ index sp frame s t, AtCall callee (interruptEntrypoint index) (deliver sp frame none s) t →
    SysVAt callee (t.pushed callee.returnAddress)

/-- The handler needs at most `n` words of stack below its return address. -/
def StackBound (callee : Callee) (n : ℕ) : Prop :=
  ∀ s, Confined (s.regs .rsp) n s.memory (callee.body s).memory

/-- Instructions that write no memory. -/
def quiet : Instr → Bool
  | .pushImm _ => false
  | .push _ => false
  | .fxsave _ => false
  | .call => false
  | _ => true

theorem exec_quiet (callee : Callee) (code : List Instr) (h : ∀ i ∈ code, quiet i = true)
    (s t : State) (hrun : exec callee code s = some t) : t.memory = s.memory := by
  induction code generalizing s with
  | nil =>
    cases hrun
    rfl
  | cons i code ih =>
    rw [exec_cons] at hrun
    obtain ⟨u,hu,hrun⟩ := Option.bind_eq_some_iff.mp hrun
    rw [ih (fun j hj => h j (List.mem_cons_of_mem i hj)) u hrun]
    have hi := h i List.mem_cons_self
    cases i with
    | pushImm v => cases hi
    | push r => cases hi
    | fxsave r => cases hi
    | call => cases hi
    | movImm r v =>
      cases hu
      rfl
    | mov d r =>
      cases hu
      rfl
    | subImm r v =>
      cases hu
      rfl
    | addImm r v =>
      cases hu
      rfl
    | andImm r v =>
      cases hu
      rfl
    | pop r =>
      rw [Machine.step] at hu
      split_ifs at hu
      cases hu
      rfl
    | fxrstor r =>
      rw [Machine.step] at hu
      split_ifs at hu
      cases hu
      rfl
    | iretq =>
      rw [Machine.step] at hu
      split_ifs at hu
      cases hu
      rfl

/-- The call writes its return address and what the handler writes. -/
theorem call_confined (callee : Callee) (n : ℕ) (hb : StackBound callee n) (top : Word) (d : ℕ)
    (s t : State) (hrsp : s.regs .rsp = below top d) (hrun : step callee s .call = some t) :
    Confined top (d+1+n) s.memory t.memory := by
  obtain ⟨u,hu,rfl⟩ := Option.map_eq_some_iff.mp hrun
  unfold State.push at hu
  split_ifs at hu
  cases hu
  obtain ⟨hp,hpush⟩ := pushAll_confined top [callee.returnAddress] d s hrsp
  have hbody := hb (s.pushed callee.returnAddress)
  have hp' : (s.pushed callee.returnAddress).regs .rsp = below top (d+1) := hp
  rw [hp'] at hbody
  exact confined_trans top _ _ _ _ _ hpush (confined_below top (d+1) n _ _ hbody) (by simp)

theorem entry_split (v : Word) :
    (interruptEntrypoint v).takeWhile notCall =
        [.pushImm 0,.push .rcx,.movImm .rcx v]++saveState ∧
      (interruptEntrypoint v).dropWhile notCall = .call::(restoreState++[.iretq]) :=
  ⟨rfl,rfl⟩

/-- From the delivery of a vector without an error code to the end of its
entry code: the handler gets the interrupted state, the registers come back,
and only words below the top of the stack are written. -/
theorem entry_returns (callee : Callee) (hsys : KeepsConvention callee) (n : ℕ)
    (hb : StackBound callee n) (v : ℕ) (hv : v ∉ ecodeVectors) (sp : Word)
    (frame : InterrupContext) (s : State) :
    ∃ t u, exec callee ((entryCode v).takeWhile notCall) (deliver sp frame none s) = some t ∧
      exec callee ((entryCode v).dropWhile notCall) t = some u ∧
      shown (readInfo t.memory (t.regs .rdi)) = (generalRegisters s.regs,0,frame) ∧
      t.regs .rsi = BitVec.ofNat 64 v ∧ Confined (sp &&& -16) (87+n) s.memory u.memory ∧
      (∀ r, r ≠ .rsp → u.regs r = s.regs r) ∧ u.regs .rsp = frame.rsp ∧ u.fpu = s.fpu ∧
      u.resumed = some frame := by
  obtain ⟨t,w,hat,herr,hctx,hgreg,-,hrsi,-,⟨pre,hcode,hw⟩,hregs,hfpu,hrsp,hframe⟩ :=
    entry_transparent callee (BitVec.ofNat 64 v) sp frame s (hsys _ _ _ _)
  obtain ⟨hbefore,hbehind⟩ := entry_split (BitVec.ofNat 64 v)
  have ht := atCall_code callee [.pushImm 0,.push .rcx,.movImm .rcx (BitVec.ofNat 64 v)] (by simp)
    _ t hat
  have hcode' : entryCode v = interruptEntrypoint (BitVec.ofNat 64 v) := if_neg hv
  rw [← hcode'] at hat
  obtain ⟨hrdi,hconf,-⟩ := entry_writes callee v sp frame none s t hat
  have hdepth : entryDepth v none = 86 := by
    rw [entryDepth, stubWords, if_neg hv]
    rfl
  rw [hdepth] at hrdi hconf
  have hpre : pre = ([.pushImm 0,.push .rcx,.movImm .rcx (BitVec.ofNat 64 v)]++saveState)++
      .call::restoreState := by
    apply List.append_cancel_right
    rw [← hcode, interruptEntrypoint, inthandlerCommon]
    simp only [List.append_assoc, List.cons_append]
  rw [hpre, exec_append, ht, Option.bind_some, exec_cons] at hw
  obtain ⟨c,hcall,hrestore⟩ := Option.bind_eq_some_iff.mp hw
  have htrsp : t.regs .rsp = below (sp &&& -16) 86 := by
    obtain ⟨e,hstub,hafter,-⟩ := stub_runs callee (BitVec.ofNat 64 v) sp frame s
    obtain ⟨t',hsave,-,-,hrsp',-⟩ :=
      reach_call callee s e (BitVec.ofNat 64 v) (s.regs .rcx) 0 frame [] (by decide) hafter
    rw [exec_append, hstub, Option.bind_some, hsave] at ht
    cases ht
    rw [hrsp', hrdi]
  have hwritten : Confined (sp &&& -16) (87+n) s.memory w.memory := by
    have hcalled := call_confined callee n hb _ 86 t c htrsp hcall
    rw [exec_quiet callee restoreState (by decide) c w hrestore]
    exact confined_trans _ _ _ _ _ _ hconf hcalled (by omega)
  have haligned : 8 ∣ (w.regs .rsp).toNat := by
    rw [hrsp]
    exact (deliver_stack sp frame none s).1.aligned
  refine ⟨t,{w.setReg .rsp w.frame.rsp with resumed := some w.frame},?_,?_,?_,hrsi,hwritten,
    ?_,?_,hfpu,congrArg some hframe⟩
  · rw [hcode', hbefore, ht]
  · rw [hcode', hbehind, exec_cons, hcall, Option.bind_some, exec_append, hrestore,
      Option.bind_some]
    simp only [exec_cons, Machine.step, if_pos haligned, Option.bind_some]
    rfl
  · rw [shown, hgreg, herr, hctx]
  · intro r hr
    exact (setReg_other w .rsp r _ hr).trans (hregs r hr)
  · rw [← hframe]
    exact setReg_same w .rsp _

/-- A word of the stack in a box of the heap. -/
theorem writeBack_stack (p n : ℕ) (hp : p+handlerStackSize < 2^64) (hn : n ≤ 8190)
    (before after : WordMemory)
    (h : Confined (BitVec.ofNat 64 (p+handlerStackSize) &&& -16) n before after)
    (m : HeaderMemory) (x : ℕ) (hx : x < p ∨ p+handlerStackSize ≤ x) :
    writeBack before after m x = m x := by
  unfold writeBack
  rw [if_neg]
  rintro ⟨hlt,hne⟩
  apply hne
  apply h
  intro j h1 hj he
  have ha := congrArg BitVec.toNat he
  rw [below_toNat p hp j (by omega), BitVec.toNat_ofNat, Nat.mod_eq_of_lt (by omega)] at ha
  have hsize : handlerStackSize = 65536 := rfl
  omega

theorem observe_some {α : Type} {x : Option α} {a : α} (h : x = some a) :
    (observe (fun _ => deref x) : Prog α) = pure a := by
  rw [h]
  rfl

theorem infoText_congr (info info' : InterrupInfo) (h : shown info = shown info') :
    infoText info = infoText info' := by
  rw [infoText, (infoArgs_shown info info').mpr h, infoText]

/-- A vector without a stub ends in the panic of the default handler. -/
theorem unstubbed_panics (entry : EntryPoints) (ps : List ℕ) (k : Kernel)
    (hv : Vectored entry ps k.cpu k.client) (callee : Callee) (fatal unexpected : List Char)
    (cr2 : Word) (software : Bool) (v : ℕ) (hlt : v < 256) (hno : v ∉ plainVectors++ecodeVectors)
    (i : Interrupted) :
    Sends (onPanic panicHandler (interrupt entry callee fatal unexpected cr2 software v i k))
      (panicText unexpected) (.error (.exited .fail)) := by
  have hdispatch : dispatch k.cpu k.memory (i.regs .rsp).toNat 0 software v =
      some ⟨(entry.handler v).toNat,kernelCs,(stackOf ps v).ptr+handlerStackSize⟩ := by
    have hd := hv.delivery (i.regs .rsp).toNat 0 software v hlt
    rwa [if_neg (by simp)] at hd
  have hroutine := unstubbed_routine entry ps k.cpu k.client hv _ _ _ _ _ hdispatch hno
  have hpanic : Sends (interrupt entry callee fatal unexpected cr2 software v i k) []
      (.error (.panicked unexpected)) := by
    refine sends_congr _ _ 0 ?_ _ _ (sends_panic unexpected)
    intro fuel _
    simp only [interrupt, observe_some hdispatch, observe_some hroutine, pure_bind,
      intHandlerUnimplemented]
  have hend := sends_onPanic panicHandler _ _ _ unexpected _ hpanic (sends_panicHandler unexpected)
  rwa [List.nil_append] at hend

/-- The report on a breakpoint, from the interrupted registers. -/
def breakpointText (i : Interrupted) (cpu : Cpu) : List Char :=
  lineAt 583 ["Interrupt Info: ".toList,
    infoText ⟨fun _ => 0,0,generalRegisters i.regs,0,i.frame cpu⟩]++
    (lineAt 584 ["Exception 0x".toList,padded 2 3,": ".toList]++lineAt 588 ["BreakPoint".toList])

/-- The kernel and the machine behind a breakpoint. -/
structure Continued (rs : List (ℕ × ℕ)) (bs : List Block) (ps : List ℕ) (i : Interrupted)
    (k k' : Kernel) (u : State) : Prop where
  inv : Inv rs k'.client bs
  cpu : k'.cpu = k.cpu
  live : k'.client.live = k.client.live
  memory : ∀ x ∉ userBytes (stackOf ps 3), k'.memory x = k.memory x
  regs : u.regs = i.regs
  fpu : u.fpu = i.fpu
  resumed : u.resumed = some (i.frame k.cpu)

theorem breakpoint_continues (rs : List (ℕ × ℕ)) (hrs : rs.Pairwise Apart)
    (hb : ∀ r ∈ rs, r.2 < 2^64) (bs : List Block) (entry : EntryPoints) (ps : List ℕ) (k : Kernel)
    (hi : Inv rs k.client bs) (hv : Vectored entry ps k.cpu k.client) (callee : Callee)
    (hsys : KeepsConvention callee) (n : ℕ) (hn : n ≤ 8100) (hstack : StackBound callee n)
    (fatal unexpected : List Char) (cr2 : Word) (i : Interrupted) :
    ∃ k' u, Continued rs bs ps i k k' u ∧
      Sends (triggerDebugInterrupt entry callee fatal unexpected cr2 i k) (breakpointText i k.cpu)
        (.ok (k',u)) := by
  have hlive := stackOf_live entry ps k.cpu k.client hv 3
  have htop : (stackOf ps 3).ptr+handlerStackSize < 2^64 := by
    obtain ⟨r,hr,-,hle⟩ := (hi.sound _ (hi.recorded _ hlive)).inside
    exact lt_of_le_of_lt hle (hb r hr)
  obtain ⟨t,u,ht,hu,hshown,hrsi,hconf,hregs,hrsp,hfpu,hresumed⟩ := entry_returns callee hsys n
    hstack 3 (by decide) (BitVec.ofNat 64 ((stackOf ps 3).ptr+handlerStackSize)) (i.frame k.cpu)
    ⟨i.regs,wordsOf k.memory,i.fpu,none⟩
  change exec callee ((interruptEntrypoint 3).takeWhile notCall) _ = some t at ht
  change exec callee ((interruptEntrypoint 3).dropWhile notCall) t = some u at hu
  have hdispatch : dispatch k.cpu k.memory (i.regs .rsp).toNat 0 true 3 =
      some ⟨(entry.handler 3).toNat,kernelCs,(stackOf ps 3).ptr+handlerStackSize⟩ := by
    have hd := hv.delivery (i.regs .rsp).toNat 0 true 3 (by decide)
    rwa [if_neg (by decide)] at hd
  have hcode : routineAt entry (entry.handler 3).toNat = some (.stub (interruptEntrypoint 3)) :=
    if_pos rfl
  have hmemory : ∀ x ∉ userBytes (stackOf ps 3),
      writeBack (wordsOf k.memory) u.memory k.memory x = k.memory x := by
    intro x hx
    apply writeBack_stack _ (87+n) htop (by omega) _ _ hconf
    by_contra hcon
    exact hx ⟨by omega,by change x < (stackOf ps 3).ptr+handlerStackSize; omega⟩
  refine ⟨k.setMemory (writeBack (wordsOf k.memory) u.memory k.memory),u,
    ⟨write_inv rs hrs k.client bs hi _ hlive _ hmemory,rfl,rfl,hmemory,?_,hfpu,hresumed⟩,?_⟩
  · funext r
    by_cases hr : r = .rsp
    · rw [hr, hrsp]
      rfl
    · exact hregs r hr
  · have hindex : (t.regs .rsi).toNat = 3 := by rw [hrsi]; rfl
    have hprint := sends_inthandler fatal ⟨cr2,peek k.memory⟩
      (readInfo t.memory (t.regs .rdi)) 3 (fun h => by cases h)
    rw [if_pos rfl, if_pos rfl, infoText_congr _
      ⟨fun _ => 0,0,generalRegisters i.regs,0,i.frame k.cpu⟩ hshown] at hprint
    have hall := sends_bind _ (fun _ _ => pure (k.setMemory (writeBack (wordsOf k.memory) u.memory
      k.memory),u)) _ _ _ _ hprint (sends_pure _)
    rw [List.append_nil] at hall
    refine sends_congr _ _ 0 ?_ _ _ hall
    intro fuel _
    simp only [triggerDebugInterrupt, interrupt, observe_some hdispatch, observe_some hcode,
      observe_some ht, pure_bind, hindex, observe_some hu]

end Wasabi.X86.Breakpoint
