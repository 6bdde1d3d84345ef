import Wasabi.X86.Breakpoint
import Wasabi.X86.ExceptionLog
import Wasabi.X86.BootOrder
import Wasabi.Paging.Dump
import Wasabi.Uefi.MemoryReport

/-!
# The kernel behind the firmware

From the initialisation of the heap on, `efi_main` needs the memory map only.
It passes exactly if the map has room for the boxes of the exceptions and,
behind them, for the page tables. What a passing boot prints is known then,
with the addresses of the tables in it. Two things are not in the kernel's
hands: whether its image and its stack are below the end of the memory that it
maps, and what the compiler makes of the read of address zero.
-/

set_option autoImplicit false

namespace Wasabi.Boot.Main
open Wasabi.Rust Wasabi.Outcome Wasabi.ObjectMemory Wasabi.RawBytes
open Wasabi.HexText Wasabi.DecimalText Wasabi.Tiling Wasabi.WordStack
open Wasabi.Serial.Console Wasabi.Print.LogLines
open Wasabi.Uefi.MemoryMap Wasabi.Uefi.MemoryReport
open Wasabi.Uefi.Exit (conventionalPages)
open Wasabi.Allocator.FirstFit Wasabi.Allocator.Provide Wasabi.Allocator.Registration
open Wasabi.Allocator.Runs Wasabi.Allocator.Boxes Wasabi.Allocator.Outside
open Wasabi.Allocator.PageSupply
open Wasabi.Paging (TableProgram.initPaging)
open Wasabi.Paging.InitPaging (LowerHalf translate endOfMem endOfMem_ge endOfMem_bounds
  translate_identity)
open Wasabi.Paging.NextLevel (Contents)
open Wasabi.Paging.Dump Wasabi.Paging.HeapTables Wasabi.Paging.HeapMapping Wasabi.Paging.HeapBoot
open Wasabi.X86.Machine Wasabi.X86.InterruptEntry Wasabi.X86.Nesting Wasabi.X86.Segmentation
open Wasabi.X86.Exceptions (EntryPoints Ready Vectored kernelCs kernelDs exceptionLayouts
  exceptionBoxes tssLayout gdtLayout idtLayout exceptions_run ready_live ready_blocks)
open Wasabi.X86.BootOrder Wasabi.X86.Breakpoint Wasabi.X86.ExceptionLog

/-- What the firmware, the compiler and the linker leave to the kernel, the
registers at the breakpoint, and the texts of the panics. `resident` are the
addresses of the image and of the stack. `readNull` is the compiled read of
address zero, given the byte there; the language does not define it. -/
structure Handover where
  map : MemoryMapHolder
  memory : HeaderMemory
  contents : Contents
  cr3 : ℕ
  cpu : Cpu
  entry : EntryPoints
  callee : Callee
  interrupted : Interrupted
  cr2 : Word
  resident : List ℕ
  readNull : Option UInt8 → Eval UInt8
  fatal : List Char
  unexpected : List Char
  oom : List Char

def infoAt (polls line : ℕ) (args : List (List Char)) : Prog Unit :=
  log polls .info "src/main.rs".toList line args

/-- `init_paging` of a kernel on its heap, with the new value of `cr3`. -/
def initPaging (fuel : ℕ) (map : MemoryMapHolder) (s : Client) : Eval (ℕ × Client) := do
  match ← TableProgram.initPaging (heapTables fuel) fuel map s with
  | (.ok cr3,s) => pure (cr3,s)
  -- An error value inside has become a panic before.
  | (.error message,_) => .error (.panic message)

/-- The processor goes on if the new tables leave in place what it runs on. -/
def resume (resident : List ℕ) (cr3 : ℕ) (s : Client) : Eval Unit :=
  if ∀ x ∈ resident, translate (tableView s.heap.memory) cr3 x = some x then .ok ()
  else .error .undefinedBehaviour

/-- The end of `efi_main`, from the switch to its own page tables on. -/
def finish (h : Handover) (fuel : ℕ) (s : Client) (polls : ℕ) : Prog Unit := do
  let (cr3,s) ← running h.oom (initPaging fuel h.map s)
  observe (fun _ => resume h.resident cr3 s)
  infoAt polls 119 ["Now we are using our own page tables!".toList]
  infoAt polls 121 ["Reading from memory address 0...".toList]
  let value ← observe (fun _ => h.readNull (peek (seen cr3 s.heap.memory) 0))
  infoAt polls 126 ["value_at_zero = ".toList,decimal value.toNat]
  exitQemu .success

/-- `efi_main` behind the exit from the boot services. -/
def behindFirmware (h : Handover) (fuel polls : ℕ) : Prog Unit := do
  let s ← running h.oom (boot fuel h.map h.memory)
  reportMemory h.map polls
  println polls ["Hello, Non-UEFI world !".toList]
  dumpTables h.contents h.cr3 polls
  let k ← initExceptions h.oom fuel h.entry ⟨s,h.cpu⟩ polls
  infoAt polls 111 ["Exception initialized!".toList]
  let (k,_) ← triggerDebugInterrupt h.entry h.callee h.fatal h.unexpected h.cr2
    h.interrupted k polls
  infoAt polls 115 ["Execution continued".toList]
  finish h fuel k.client polls

/-- The boxes of the exceptions find room in the fresh heap, and the pages of
the tables in what is left. -/
def Roomy (ds : List EfiMemoryDescriptor) : Prop :=
  ∃ ps bs, fits exceptionLayouts ((registeredRegions ds).map freeBlock) = some (ps,bs) ∧
    bootTables (endOfMem ds 0x100000000) ≤ pageYields bs

theorem roomy_iff (ds : List EfiMemoryDescriptor) : Roomy ds ↔
    ∃ r ∈ fits exceptionLayouts ((registeredRegions ds).map freeBlock),
      bootTables (endOfMem ds 0x100000000) ≤ pageYields r.2 := by
  constructor
  · rintro ⟨ps,bs,hfit,hpages⟩
    exact ⟨(ps,bs),hfit,hpages⟩
  · rintro ⟨⟨ps,bs⟩,hfit,hpages⟩
    exact ⟨ps,bs,hfit,hpages⟩

instance (ds : List EfiMemoryDescriptor) : Decidable (Roomy ds) :=
  decidable_of_iff _ (roomy_iff ds).symm

theorem not_roomy (ds : List EfiMemoryDescriptor)
    (hfit : fits exceptionLayouts ((registeredRegions ds).map freeBlock) = none) : ¬ Roomy ds := by
  rintro ⟨ps,bs,hfit',-⟩
  rw [hfit] at hfit'
  cases hfit'

theorem roomy_some (ds : List EfiMemoryDescriptor) (ps : List ℕ) (bs : List Block)
    (hfit : fits exceptionLayouts ((registeredRegions ds).map freeBlock) = some (ps,bs)) :
    Roomy ds ↔ bootTables (endOfMem ds 0x100000000) ≤ pageYields bs := by
  constructor
  · rintro ⟨ps',bs',hfit',hpages⟩
    rw [hfit] at hfit'
    cases hfit'
    exact hpages
  · exact fun hpages => ⟨ps,bs,hfit,hpages⟩

-- A gibibyte is enough to map everything below its end; two mebibytes are not.
example : Roomy [conventionalPages 0x100000000 0x40000] := by decide

example : ¬ Roomy [conventionalPages 0x100000 0x200] := by decide

def infoLine (line : ℕ) (args : List (List Char)) : List Char :=
  logText .info "src/main.rs".toList line args

def exceptionText (ps : List ℕ) : List Char :=
  tssText (ps.getD 8 0)++(loadText (ps.getD 9 0)++idtText (ps.getD 10 0))

def openingText (h : Handover) : List Char :=
  reportText (descriptors h.map)++
    (("Hello, Non-UEFI world !".toList++['\n'])++dumpText h.contents h.cr3)

def closingText (value : UInt8) : List Char :=
  infoLine 119 ["Now we are using our own page tables!".toList]++
    (infoLine 121 ["Reading from memory address 0...".toList]++
      infoLine 126 ["value_at_zero = ".toList,decimal value.toNat])

/-- What a boot prints that ends with `last`. The boxes are at `ps`. -/
def textBefore (h : Handover) (ps : List ℕ) (last : List Char) : List Char :=
  openingText h++(exceptionText ps++(infoLine 111 ["Exception initialized!".toList]++
    (breakpointText h.interrupted {h.cpu with cs := kernelCs, ss := kernelDs}++
      (infoLine 115 ["Execution continued".toList]++last))))

/-- The log of a passing boot. Address zero holds `value`. -/
def bootLog (h : Handover) (ps : List ℕ) (value : UInt8) : List Char :=
  textBefore h ps (closingText value)

section Rules
variable {α β : Type} (oom : List Char)

/-- An evaluation sends nothing. -/
theorem sends_running (e : Eval α) (f : ℕ → α → Prog β) (a : α) (t : List Char)
    (r : Except Ending β) (he : e = .ok a) (hf : Sends (fun polls => f polls a) t r) :
    Sends (fun polls => running oom e >>= f polls) t r := by
  subst he
  exact sends_bind _ f [] t a r (sends_pure a) hf

theorem sends_oom (e : Eval α) (f : ℕ → α → Prog β) (he : e = .error .outOfMemory) :
    Sends (fun polls => running oom e >>= f polls) [] (.error (.panicked oom)) := by
  subst he
  exact sends_ended _ f [] _ (sends_panic oom)

theorem sends_infoAt (line : ℕ) (args : List (List Char)) :
    Sends (fun polls => infoAt polls line args) (infoLine line args) (.ok ()) :=
  sends_log .info "src/main.rs".toList line args

end Rules

theorem breakpointText_congr (i : Interrupted) (cpu cpu' : Cpu) (hcs : cpu.cs = cpu'.cs)
    (hss : cpu.ss = cpu'.ss) : breakpointText i cpu = breakpointText i cpu' := by
  unfold breakpointText Interrupted.frame
  rw [hcs, hss]

/-- The last three boxes are the tables. -/
theorem boxes_tables (ps : List ℕ) (hps : ps.length = 11) (tss gdt idt : ℕ)
    (rest live : List Allocation)
    (h : ⟨idt,idtLayout⟩::⟨gdt,gdtLayout⟩::⟨tss,tssLayout⟩::rest =
      (exceptionBoxes ps).reverse++live) :
    tss = ps.getD 8 0 ∧ gdt = ps.getD 9 0 ∧ idt = ps.getD 10 0 := by
  match ps, hps, h with
  | [_,_,_,_,_,_,_,_,_,_,_], _, h =>
    obtain ⟨hidt,h⟩ := List.cons.inj h
    obtain ⟨hgdt,h⟩ := List.cons.inj h
    obtain ⟨htss,-⟩ := List.cons.inj h
    exact ⟨congrArg Allocation.ptr htss,congrArg Allocation.ptr hgdt,congrArg Allocation.ptr hidt⟩

/-- Neither the boxes nor the stack of the breakpoint are outside of the heap. -/
theorem unregistered_kept (rs : List (ℕ × ℕ)) (s : Client) (bs bs' : List Block)
    (entry : EntryPoints) (ps : List ℕ) (k k' : Kernel) (hready : Ready rs s bs entry ps bs' k)
    (hi : Inv rs k.client bs') (hv : Vectored entry ps k.cpu k.client) (i : Interrupted) (u : State)
    (hcont : Continued rs bs' ps i k k' u) (x : ℕ) (hx : Unregistered rs x) :
    k'.memory x = s.heap.memory x := by
  have hfar := unregistered_inside rs x hx (stackOf ps 3)
    (hi.sound _ (hi.recorded _ (stackOf_live entry ps k.cpu k.client hv 3))).inside
  obtain ⟨_,_,_,_,-,-,hst,-⟩ := hready.boxes
  calc
    k'.memory x = k.memory x := hcont.memory x hfar
    _ = s.heap.memory x := hst.outside x hx

-- With a gibibyte below 0x140000000 the tables are where the recorded boot has them.
example : (fits exceptionLayouts [freeBlock (0x100000000,0x140000000)]).map
    (fun r => r.1.drop 8) = some [0x13ff7fe80,0x13ff7fe20,0x13ff7ee00] := by decide

section Boot
variable (h : Handover) (fuel : ℕ)

theorem sends_opening (hmap : UefiContract h.map) (hconv : ConventionalContract (descriptors h.map))
    (y : ℕ → Prog Unit) (t : List Char) (r : Except Ending Unit) (hy : Sends y t r) :
    Sends (fun polls => do
      reportMemory h.map polls
      println polls ["Hello, Non-UEFI world !".toList]
      dumpTables h.contents h.cr3 polls
      y polls) (openingText h++t) r := by
  have hello := sends_println ["Hello, Non-UEFI world !".toList]
  rw [List.flatten_singleton] at hello
  rw [openingText, List.append_assoc, List.append_assoc]
  apply sends_seq _ _ _ _ _ (sends_memory h.map _ (contract_shows h.map hmap) hconv)
  apply sends_seq _ _ _ _ _ hello
  exact sends_seq _ _ _ _ _ (sends_dump h.contents h.cr3) hy

/-- Under the new tables everything below the end of the memory is in place,
and a byte outside of the heap is the same as before. -/
theorem paging_run (hmap : UefiContract h.map) (hconv : ConventionalContract (descriptors h.map))
    (hds : LowerHalf (descriptors h.map)) (s : Client) (bs : List Block)
    (hi : Inv (registeredRegions (descriptors h.map)) s bs) (value : UInt8)
    (hzero : s.heap.memory 0 = .raw value) (hd : (descriptors h.map).length < fuel)
    (hf : bs.length+2*registeredBytes (descriptors h.map) ≤ fuel) :
    (pageYields bs < bootTables (endOfMem (descriptors h.map) 0x100000000) →
      initPaging fuel h.map s = .error .outOfMemory) ∧
    (bootTables (endOfMem (descriptors h.map) 0x100000000) ≤ pageYields bs →
      ∃ cr3 s', initPaging fuel h.map s = .ok (cr3,s') ∧
        (∀ x < endOfMem (descriptors h.map) 0x100000000,
          translate (tableView s'.heap.memory) cr3 x = some x) ∧
        peek (seen cr3 s'.heap.memory) 0 = some value) := by
  have hyields := yields_registered _ s bs hi
  obtain ⟨hfew,henough⟩ := boot_run _ hds h.map (contract_shows h.map hmap)
    (registered_apart _ hconv) s bs hi [] fuel hd (by rw [List.length_nil]; omega)
  constructor
  · intro hlt
    rw [initPaging, hfew hlt]
    rfl
  · intro hle
    obtain ⟨cr3,s',tables,bs',hrun,-,-,-,-,-,-,houtside,hplace,-⟩ := henough hle
    obtain ⟨htop,hal⟩ := endOfMem_bounds (descriptors h.map) hds 0x100000000 (by decide) (by decide)
    have hlow := endOfMem_ge (descriptors h.map) 0x100000000
    have hsame : ∀ x < endOfMem (descriptors h.map) 0x100000000,
        translate (tableView s'.heap.memory) cr3 x = some x :=
      fun x hx => translate_identity _ cr3 _ x htop hal hplace.identity hx
    refine ⟨cr3,s',by rw [initPaging, hrun]; rfl,hsame,?_⟩
    rw [peek, seen_mapped cr3 s'.heap.memory 0 0 (hsame 0 (by omega)),
      houtside 0 (unregistered_zero _ hconv 0 (by decide)), hzero]

theorem sends_finish (hload : ∀ byte, h.readNull (some byte) = .ok byte) (s s' : Client) (cr3 : ℕ)
    (value : UInt8) (hrun : initPaging fuel h.map s = .ok (cr3,s'))
    (hplace : ∀ x ∈ h.resident, translate (tableView s'.heap.memory) cr3 x = some x)
    (hvalue : peek (seen cr3 s'.heap.memory) 0 = some value) :
    Sends (finish h fuel s) (closingText value) (.error (.exited .success)) := by
  apply sends_running _ _ _ _ _ _ hrun
  apply sends_bind _ _ _ _ _ _ (sends_observe () _ (if_pos hplace))
  apply sends_seq _ _ _ _ _ (sends_infoAt 119 _)
  apply sends_seq _ _ _ _ _ (sends_infoAt 121 _)
  have hget : h.readNull (peek (seen cr3 s'.heap.memory) 0) = .ok value := by
    rw [hvalue, hload]
  have hread := sends_bind _ (fun polls (value : UInt8) => (do
    infoAt polls 126 ["value_at_zero = ".toList,decimal value.toNat]
    exitQemu .success : Prog Unit)) _ _ _ _ (sends_observe value _ hget)
    (sends_seq _ _ _ _ _ (sends_infoAt 126 _) (sends_exit .success))
  rw [List.append_nil] at hread
  exact hread

/-- The boot passes where there is room, and otherwise panics in the allocation
error handler. -/
theorem sends_behindFirmware (hmap : UefiContract h.map)
    (hconv : ConventionalContract (descriptors h.map)) (hds : LowerHalf (descriptors h.map))
    (hsys : KeepsConvention h.callee) (n : ℕ) (hn : n ≤ 8100) (hstack : StackBound h.callee n)
    (value : UInt8) (hzero : h.memory 0 = .raw value)
    (hresident : ∀ x ∈ h.resident, x < endOfMem (descriptors h.map) 0x100000000)
    (hload : ∀ byte, h.readNull (some byte) = .ok byte)
    (hf : (descriptors h.map).length+2*registeredBytes (descriptors h.map)+40 < fuel) :
    (∃ ps bs, fits exceptionLayouts ((registeredRegions (descriptors h.map)).map freeBlock) =
        some (ps,bs) ∧ bootTables (endOfMem (descriptors h.map) 0x100000000) ≤ pageYields bs ∧
      Sends (behindFirmware h fuel) (bootLog h ps value) (.error (.exited .success))) ∨
    (¬ Roomy (descriptors h.map) ∧
      ∃ text, Sends (behindFirmware h fuel) text (.error (.panicked h.oom))) := by
  have hs := contract_shows h.map hmap
  have hap := registered_apart _ hconv
  have hb : ∀ r ∈ registeredRegions (descriptors h.map), r.2 < 2^64 :=
    fun r hr => (registered_ok _ hconv r hr).1.bound
  have hunreg := unregistered_zero _ hconv 0 (by decide)
  obtain ⟨s,hboot,-,-,hi⟩ := boot_inv h.map _ hs hconv h.memory fuel (by omega)
  have hlen : ((registeredRegions (descriptors h.map)).map freeBlock).length ≤
      (descriptors h.map).length := by
    rw [List.length_map, registeredRegions, List.length_reverse]
    exact (List.length_filterMap_le _ _).trans (List.length_filter_le _ _)
  obtain ⟨hfull,hroom⟩ := exceptions_run _ s _ hi hap hb h.entry h.cpu [] fuel
    (by rw [List.length_nil]; omega)
  obtain ⟨hreturns,hpanics⟩ := follows_exceptions h.oom fuel h.entry ⟨s,h.cpu⟩
  cases hfit : fits exceptionLayouts ((registeredRegions (descriptors h.map)).map freeBlock) with
  | none =>
    obtain ⟨text,htext⟩ := hpanics (hfull hfit)
    refine Or.inr ⟨not_roomy _ hfit,openingText h++text,?_⟩
    apply sends_running _ _ _ _ _ _ hboot
    apply sends_opening h hmap hconv
    exact sends_ended _ _ _ _ htext
  | some r =>
    obtain ⟨ps,bs⟩ := r
    obtain ⟨k,hk,hik,hready,hv,-⟩ := hroom ps bs hfit
    obtain ⟨text,htext,tss,gdt,idt,rest,rfl,hlive⟩ := hreturns k hk
    obtain ⟨rfl,rfl,rfl⟩ := boxes_tables ps hv.count tss gdt idt rest s.live
      (hlive.symm.trans (ready_live _ s _ h.entry ps bs k hready))
    obtain ⟨k',u,hcont,hbreak⟩ := breakpoint_continues _ hap hb bs h.entry ps k hik hv h.callee
      hsys n hn hstack h.fatal h.unexpected h.cr2 h.interrupted
    rw [breakpointText_congr _ k.cpu {h.cpu with cs := kernelCs, ss := kernelDs} hready.cs
      hready.ss] at hbreak
    have hzero' : k'.memory 0 = .raw value := by
      rw [unregistered_kept _ s _ bs h.entry ps k k' hready hik hv _ u hcont 0 hunreg,
        boot_outside h.map _ hs hconv h.memory fuel (by omega) s hboot 0 hunreg, hzero]
    have hblocks := ready_blocks _ s _ h.entry ps bs k hready
    obtain ⟨hfew,henough⟩ := paging_run h fuel hmap hconv hds k'.client bs hcont.inv value hzero'
      (by omega) (by omega)
    have hbefore : ∀ last r, Sends (finish h fuel k'.client) last r →
        Sends (behindFirmware h fuel) (textBefore h ps last) r := by
      intro last r hlast
      apply sends_running _ _ _ _ _ _ hboot
      apply sends_opening h hmap hconv
      apply sends_bind _ _ _ _ _ _ htext
      apply sends_seq _ _ _ _ _ (sends_infoAt 111 _)
      apply sends_bind _ _ _ _ _ _ hbreak
      exact sends_seq _ _ _ _ _ (sends_infoAt 115 _) hlast
    rcases Nat.lt_or_ge (pageYields bs)
      (bootTables (endOfMem (descriptors h.map) 0x100000000)) with hlt | hle
    · refine Or.inr ⟨?_,_,hbefore [] _ (sends_oom h.oom _ _ (hfew hlt))⟩
      rw [roomy_some _ ps bs hfit]
      omega
    · obtain ⟨cr3,s',hrun,hplace,hvalue⟩ := henough hle
      exact Or.inl ⟨ps,bs,rfl,hle,hbefore _ _ (sends_finish h fuel hload k'.client s' cr3 value hrun
        (fun x hx => hplace x (hresident x hx)) hvalue)⟩

end Boot

end Wasabi.Boot.Main
