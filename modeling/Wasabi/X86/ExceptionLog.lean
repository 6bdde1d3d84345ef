import Wasabi.X86.Exceptions
import Wasabi.Print.LogLines
import Wasabi.Support.HexText

/-!
# Setting up the exceptions, with what is printed

The kernel prints where it puts its tables. A box that finds no room ends in
the panic of the allocation error handler, also in the middle of the lines.
What is printed around an evaluation follows from the evaluation.
-/

set_option autoImplicit false

namespace Wasabi.X86.ExceptionLog
open Wasabi.Rust Wasabi.Outcome Wasabi.HexText Wasabi.DecimalText
open Wasabi.Serial.Console Wasabi.Print.LogLines
open Wasabi.Allocator.FirstFit Wasabi.Allocator.Runs Wasabi.Allocator.Boxes
open Wasabi.X86.Descriptors Wasabi.X86.Segmentation
open Wasabi.X86.Exceptions (EntryPoints kernelCs kernelDs tss64Sel stackLayout tssLayout gdtLayout
  idtLayout idtBytes idtLimit)

/-- An evaluation in the kernel. `oom` is the text of the `PanicInfo` of the
allocation error handler. -/
def running {α : Type} (oom : List Char) (x : Eval α) : Prog α := fun bus =>
  match x with
  | .ok a => .ok (.ok a,bus)
  | .error (.panic message) => .ok (.error (.panicked message.toList),bus)
  | .error .outOfMemory => .ok (.error (.panicked oom),bus)
  | .error e => .error e

def infoAt (fuel line : ℕ) (args : List (List Char)) : Prog Unit :=
  log fuel .info "src/x86.rs".toList line args

def infoLine (line : ℕ) (args : List (List Char)) : List Char :=
  logText .info "src/x86.rs".toList line args

section Program
variable (oom : List Char) (fuel : ℕ)

/-- `TaskStateSegment64::new`. -/
def taskStateSegment64New (s : Client) (polls : ℕ) : Prog (Client × ℕ) := do
  let (s,tss) ← running oom (Exceptions.taskStateSegment64New fuel s)
  infoAt polls 832 ["TSS64 created @ 0x".toList,padded 1 tss]
  pure (s,tss)

/-- `GdtWrapper::default`. -/
def gdtWrapperDefault (s : Client) (polls : ℕ) : Prog (Client × ℕ) := do
  let (s,tss) ← taskStateSegment64New oom fuel s polls
  running oom (boxNew fuel gdtLayout (kernelGdt tss).bytes s)

def gdtWrapperLoad (gdt : ℕ) (k : Kernel) (polls : ℕ) : Prog Kernel := do
  infoAt polls 917 ["Loading GDT @ 0x".toList,padded 16 gdt]
  let k := lgdt (tableParameters (40-1) gdt) k
  infoAt polls 923 ["Loading TSS ( selector = 0x".toList,padded 1 tss64Sel," )".toList]
  running oom (ltr tss64Sel k)

def idtNew (segmentSelector : ℕ) (entry : EntryPoints) (k : Kernel) (polls : ℕ) : Prog Kernel := do
  let (s,idt) ← running oom (boxNew fuel idtLayout (idtBytes segmentSelector entry) k.client)
  infoAt polls 774 ["Loading IDT: IdtrParameters \x7b limit: ".toList,decimal idtLimit,
    ", base: 0x".toList,paddedOf false 1 idt," \x7d".toList]
  pure (lidt (tableParameters idtLimit idt) {k with client := s})

def initExceptions (entry : EntryPoints) (k : Kernel) (polls : ℕ) : Prog Kernel := do
  let (s,gdt) ← gdtWrapperDefault oom fuel k.client polls
  let k ← gdtWrapperLoad oom gdt {k with client := s} polls
  let k ← running oom (writeCs kernelCs k)
  let k ← running oom (writeSs kernelDs k)
  let k ← running oom (writeData .es kernelDs k)
  let k ← running oom (writeData .ds kernelDs k)
  let k ← running oom (writeData .fs kernelDs k)
  let k ← running oom (writeData .gs kernelDs k)
  idtNew oom fuel kernelCs entry k polls

end Program

/-- The program has a value where the evaluation has it, with a text as
stated, and it panics where the evaluation is out of memory. -/
structure Follows {α : Type} (oom : List Char) (x : ℕ → Prog α) (e : Eval α)
    (post : α → List Char → Prop) : Prop where
  returns : ∀ a, e = .ok a → ∃ text, Sends x text (.ok a) ∧ post a text
  panics : e = .error .outOfMemory → ∃ text, Sends x text (.error (.panicked oom))

section Rules
variable {α β : Type} (oom : List Char)

theorem follows_running (e : Eval α) :
    Follows oom (fun _ => running oom e) e (fun a text => e = .ok a ∧ text = []) := by
  constructor
  · rintro a rfl
    exact ⟨[],sends_pure a,rfl,rfl⟩
  · rintro rfl
    exact ⟨[],sends_panic oom⟩

theorem follows_info (line : ℕ) (args : List (List Char)) :
    Follows oom (fun polls => infoAt polls line args) (.ok ()) (fun _ text =>
      text = infoLine line args) :=
  ⟨fun _ _ => ⟨_,sends_log .info _ line args,rfl⟩,fun h => by cases h⟩

theorem follows_pure (a : α) :
    Follows oom (fun _ => pure a) (.ok a) (fun b text => b = a ∧ text = []) := by
  constructor
  · intro b h
    cases h
    exact ⟨[],sends_pure a,rfl,rfl⟩
  · intro h
    cases h

theorem follows_bind (x : ℕ → Prog α) (f : ℕ → α → Prog β) (e : Eval α) (g : α → Eval β)
    (mid : α → List Char → Prop) (post : β → List Char → Prop) (hx : Follows oom x e mid)
    (hf : ∀ a s, mid a s → Follows oom (fun polls => f polls a) (g a)
      (fun b t => post b (s++t))) :
    Follows oom (fun polls => x polls >>= f polls) (e >>= g) post := by
  cases e with
  | error fault =>
    constructor
    · intro b h
      cases h
    · intro h
      obtain ⟨s,hs⟩ := hx.panics (by cases h; rfl)
      exact ⟨s,sends_ended _ _ _ _ hs⟩
  | ok a =>
    obtain ⟨s,hs,hmid⟩ := hx.returns a rfl
    obtain ⟨hreturns,hpanics⟩ := hf a s hmid
    constructor
    · intro b hb
      obtain ⟨t,ht,hpost⟩ := hreturns b hb
      exact ⟨s++t,sends_bind _ _ _ _ _ _ hs ht,hpost⟩
    · intro hb
      obtain ⟨t,ht⟩ := hpanics hb
      exact ⟨s++t,sends_bind _ _ _ _ _ _ hs ht⟩

/-- What does not print comes without a text. -/
theorem follows_running_bind (f : ℕ → α → Prog β) (e : Eval α) (g : α → Eval β)
    (post : β → List Char → Prop)
    (h : ∀ a, e = .ok a → Follows oom (fun polls => f polls a) (g a) post) :
    Follows oom (fun polls => running oom e >>= f polls) (e >>= g) post := by
  apply follows_bind oom _ _ _ _ _ _ (follows_running oom e)
  rintro a _ ⟨ha,rfl⟩
  exact h a ha

theorem follows_mono (x : ℕ → Prog α) (e : Eval α) (mid post : α → List Char → Prop)
    (hx : Follows oom x e mid) (h : ∀ a text, mid a text → post a text) :
    Follows oom x e post := by
  refine ⟨?_,hx.panics⟩
  intro a ha
  obtain ⟨text,htext,hmid⟩ := hx.returns a ha
  exact ⟨text,htext,h a text hmid⟩

end Rules

theorem boxNew_live (fuel : ℕ) (layout : Layout) (bytes : List UInt8) (s s' : Client) (p : ℕ)
    (h : boxNew fuel layout bytes s = .ok (s',p)) : s'.live = ⟨p,layout⟩::s.live := by
  obtain ⟨⟨heap,q⟩,-,h⟩ := bind_ok _ _ _ h
  simp only at h
  split_ifs at h
  cases h
  rfl

theorem loadSegment_live (selector n : ℕ) (valid : Segment → Bool) (bits : ℕ) (k k' : Kernel)
    (bytes : List UInt8) (h : loadSegment selector n valid bits k = .ok (bytes,k')) :
    k'.client.live = k.client.live := by
  obtain ⟨_,-,h⟩ := bind_ok _ _ _ h
  obtain ⟨_,-,h⟩ := bind_ok _ _ _ h
  cases h
  rfl

theorem ltr_live (k k' : Kernel) (h : ltr tss64Sel k = .ok k') :
    k'.client.live = k.client.live := by
  obtain ⟨⟨_,k1⟩,hload,h⟩ := bind_ok _ _ _ h
  cases h
  exact loadSegment_live _ _ _ _ k k1 _ hload

theorem writeCs_live (k k' : Kernel) (h : writeCs kernelCs k = .ok k') :
    k'.client.live = k.client.live := by
  obtain ⟨⟨_,k1⟩,hload,h⟩ := bind_ok _ _ _ h
  cases h
  exact loadSegment_live _ _ _ _ k k1 _ hload

theorem writeSs_live (k k' : Kernel) (h : writeSs kernelDs k = .ok k') :
    k'.client.live = k.client.live := by
  obtain ⟨⟨_,k1⟩,hload,h⟩ := bind_ok _ _ _ h
  cases h
  exact loadSegment_live _ _ _ _ k k1 _ hload

theorem writeData_live (r : DataRegister) (k k' : Kernel) (h : writeData r kernelDs k = .ok k') :
    k'.client.live = k.client.live := by
  obtain ⟨⟨_,k1⟩,hload,h⟩ := bind_ok _ _ _ h
  cases h
  exact loadSegment_live _ _ _ _ k k1 _ hload

def tssText (tss : ℕ) : List Char := infoLine 832 ["TSS64 created @ 0x".toList,padded 1 tss]

def loadText (gdt : ℕ) : List Char :=
  infoLine 917 ["Loading GDT @ 0x".toList,padded 16 gdt]++
    infoLine 923 ["Loading TSS ( selector = 0x".toList,padded 1 tss64Sel," )".toList]

def idtText (idt : ℕ) : List Char :=
  infoLine 774 ["Loading IDT: IdtrParameters \x7b limit: ".toList,decimal idtLimit,
    ", base: 0x".toList,paddedOf false 1 idt," \x7d".toList]

section Exceptions
variable (oom : List Char) (fuel : ℕ)

theorem follows_tss (s : Client) :
    Follows oom (taskStateSegment64New oom fuel s) (Exceptions.taskStateSegment64New fuel s)
      (fun r text => text = tssText r.2 ∧ ∃ rest, r.1.live = ⟨r.2,tssLayout⟩::rest) := by
  rw [← bind_pure (Exceptions.taskStateSegment64New fuel s)]
  apply follows_running_bind
  rintro ⟨s1,tss⟩ hrun
  apply follows_bind oom _ _ (.ok ()) (fun _ => .ok (s1,tss)) _ _ (follows_info oom _ _)
  rintro _ _ rfl
  apply follows_mono oom _ _ _ _ (follows_pure oom (s1,tss))
  rintro _ _ ⟨rfl,rfl⟩
  obtain ⟨⟨s2,rsp0⟩,-,hrun⟩ := bind_ok _ _ _ hrun
  obtain ⟨⟨s3,ist⟩,-,hrun⟩ := bind_ok _ _ _ hrun
  exact ⟨List.append_nil _,_,boxNew_live _ _ _ _ _ _ hrun⟩

theorem follows_gdt (s : Client) :
    Follows oom (gdtWrapperDefault oom fuel s) (Exceptions.gdtWrapperDefault fuel s)
      (fun r text => ∃ tss rest, text = tssText tss ∧
        r.1.live = ⟨r.2,gdtLayout⟩::⟨tss,tssLayout⟩::rest) := by
  apply follows_bind oom _ _ _ _ _ _ (follows_tss oom fuel s)
  rintro ⟨s1,tss⟩ _ ⟨rfl,rest,hlive⟩
  apply follows_mono oom _ _ _ _ (follows_running oom _)
  rintro ⟨s2,gdt⟩ _ ⟨hrun,rfl⟩
  refine ⟨tss,rest,List.append_nil _,?_⟩
  rw [boxNew_live _ _ _ _ _ _ hrun, hlive]

theorem follows_load (gdt : ℕ) (k : Kernel) :
    Follows oom (gdtWrapperLoad oom gdt k) (Exceptions.gdtWrapperLoad gdt k)
      (fun k' text => text = loadText gdt ∧ k'.client.live = k.client.live) := by
  apply follows_bind oom _ _ (.ok ()) (fun _ => Exceptions.gdtWrapperLoad gdt k) _ _
    (follows_info oom _ _)
  rintro _ _ rfl
  apply follows_bind oom _ _ (.ok ()) (fun _ => Exceptions.gdtWrapperLoad gdt k) _ _
    (follows_info oom _ _)
  rintro _ _ rfl
  apply follows_mono oom _ _ _ _ (follows_running oom _)
  rintro k' _ ⟨hrun,rfl⟩
  have hlive := ltr_live (lgdt (tableParameters (40-1) gdt) k) k' hrun
  rw [lgdt_client] at hlive
  exact ⟨by rw [List.append_nil]; rfl,hlive⟩

theorem follows_idt (sel : ℕ) (entry : EntryPoints) (k : Kernel) :
    Follows oom (idtNew oom fuel sel entry k) (Exceptions.idtNew fuel sel entry k)
      (fun k' text => ∃ idt, text = idtText idt ∧
        k'.client.live = ⟨idt,idtLayout⟩::k.client.live) := by
  apply follows_running_bind
  rintro ⟨s1,idt⟩ hrun
  apply follows_bind oom _ _ (.ok ()) (fun _ => .ok _) _ _ (follows_info oom _ _)
  rintro _ _ rfl
  apply follows_mono oom _ _ _ _ (follows_pure oom _)
  rintro _ _ ⟨rfl,rfl⟩
  exact ⟨idt,List.append_nil _,boxNew_live _ _ _ _ _ _ hrun⟩

/-- The lines name the tables where the heap has them. -/
theorem follows_exceptions (entry : EntryPoints) (k : Kernel) :
    Follows oom (initExceptions oom fuel entry k) (Exceptions.initExceptions fuel entry k)
      (fun k' text => ∃ tss gdt idt rest, text = tssText tss++(loadText gdt++idtText idt) ∧
        k'.client.live = ⟨idt,idtLayout⟩::⟨gdt,gdtLayout⟩::⟨tss,tssLayout⟩::rest) := by
  apply follows_bind oom _ _ _ _ _ _ (follows_gdt oom fuel k.client)
  rintro ⟨s,gdt⟩ _ ⟨tss,rest,rfl,hgdt⟩
  apply follows_bind oom _ _ _ _ _ _ (follows_load oom gdt _)
  rintro k1 _ ⟨rfl,h1⟩
  apply follows_running_bind
  intro k2 h2
  apply follows_running_bind
  intro k3 h3
  apply follows_running_bind
  intro k4 h4
  apply follows_running_bind
  intro k5 h5
  apply follows_running_bind
  intro k6 h6
  apply follows_running_bind
  intro k7 h7
  apply follows_mono oom _ _ _ _ (follows_idt oom fuel kernelCs entry k7)
  rintro k' _ ⟨idt,rfl,hidt⟩
  refine ⟨tss,gdt,idt,rest,rfl,?_⟩
  rw [hidt, writeData_live _ _ _ h7, writeData_live _ _ _ h6, writeData_live _ _ _ h5,
    writeData_live _ _ _ h4, writeSs_live _ _ h3, writeCs_live _ _ h2, h1]
  exact congrArg _ hgdt

end Exceptions

end Wasabi.X86.ExceptionLog
