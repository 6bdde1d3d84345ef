import Wasabi.Boot.Main
import Wasabi.Graphics.BootScreen
import Wasabi.Print.Hexdump

/-!
# The whole of `efi_main`

Under the firmware the kernel greets, draws the test pattern and fetches the
memory map before it lets the firmware go. A service that fails is not noticed,
so the firmware has to have what the kernel asks it for, and to leave its map
alone between the fetch and the exit. Then the screen and the map decide
whether the boot passes.
-/

set_option autoImplicit false

namespace Wasabi.Boot.EfiMain
open Wasabi.Rust Wasabi.Outcome Wasabi.ObjectMemory Wasabi.PolledOutput Wasabi.HexText
open Wasabi.Serial.Console Wasabi.Print.LogLines Wasabi.Print.Hexdump Wasabi.Qemu.Launch
open Wasabi.Uefi.MemoryMap Wasabi.Uefi.Encoding
open Wasabi.Uefi.BootServices (Current Event System Undisturbed locate firstFetch start)
open Wasabi.Uefi.Exit (undisturbed_run exit_contract wideRegion wideMap_shows)
open Wasabi.Allocator.Registration Wasabi.Allocator.Runs Wasabi.Allocator.Boxes
open Wasabi.Allocator.PageSupply
open Wasabi.Allocator.Safety (wideMap_conventional)
open Wasabi.Graphics.Pixels (Bitmap)
open Wasabi.Graphics.Font (FontTable)
open Wasabi.Graphics.Text (blocks)
open Wasabi.Graphics.BootScreen
open Wasabi.Paging.InitPaging (LowerHalf endOfMem endOfMem_ge)
open Wasabi.Paging.NextLevel (firmwareTables)
open Wasabi.Paging.HeapMapping Wasabi.Paging.HeapBoot
open Wasabi.Paging.Dump (pointer)
open Wasabi.X86.Exceptions (exceptionLayouts sampleEntries sampleCpu)
open Wasabi.X86.InterruptEntry Wasabi.X86.Transparency Wasabi.X86.Nesting
open Wasabi.X86.Breakpoint Wasabi.X86.Handler
open Wasabi.Boot.Main

structure LoadedImage where
  imageBase : ℕ
  imageSize : ℕ

/-- What the firmware answers, with the bytes of its table and the changes of
its memory map between the calls of the kernel. -/
structure Firmware where
  imageHandle : ℕ
  systemTable : ℕ
  bytes : Fin 104 → UInt8
  loadedImage : Option LoadedImage
  mode : Option GraphicsMode
  frame : ℕ → UInt8
  current : Current
  events : List Event

/-- The calls of `exit_from_efi_boot_services`, with the changes in between. -/
def Firmware.exitLoop (f : Firmware) : System :=
  Uefi.BootServices.run (start f.current MemoryMapHolder.new) f.events

/-- `answer` is what is behind the pointer if `handle_protocol` succeeds. -/
def locateLoadedImageProtocal (answer : Option LoadedImage) : Eval (Except String LoadedImage) :=
  locate answer "Failed to local graphics output protocol"

/-- An evaluation whose panics have a `PanicInfo` with the message in it. -/
def asserting {α : Type} (said : String → List Char) (x : Eval α) : Prog α := fun bus =>
  match x with
  | .error (.panic message) => .ok (.error (.panicked (said message)),bus)
  | .error e => .error e
  | .ok a => .ok (.ok a,bus)

/-- `Result::expect`. -/
def expected {α : Type} (x : Except String α) (message : String) : Eval α :=
  match x with
  | .ok a => .ok a
  | .error e => .error (.panic (expectMessage message e))

/-- How `exit_from_efi_boot_services` has ended, with the map it leaves. -/
def ended (s : System) : Eval MemoryMapHolder :=
  match s.kernel with
  | .returned => .ok s.holder
  | .panicked => .error (.panic "assertion `left == right` failed")
  -- The loop is still running.
  | _ => .error .outOfFuel

/-- `{:#018X}`. -/
def address (n : ℕ) : List Char := "0x".toList++padded 16 n

section Program
variable (said : String → List Char) (font : FontTable) (f : Firmware)

/-- `efi_main` up to the dump of the table. -/
def announce (polls : ℕ) : Prog Unit := do
  println polls ["Booting WasabiOS ... \n".toList]
  println polls ["image_handle: ".toList,address f.imageHandle,['\n']]
  println polls ["efi_system_table: ".toList,pointer f.systemTable,['\n']]
  let found ← asserting said (locateLoadedImageProtocal f.loadedImage)
  let image ← asserting said (expected found "Failed to get LoadedImageProtocol")
  println polls ["image_base: ".toList,address image.imageBase]
  println polls ["image_size: ".toList,address image.imageSize]
  log polls .info "src/main.rs".toList 63 ["info".toList]
  log polls .warn "src/main.rs".toList 64 ["warn".toList]
  log polls .error "src/main.rs".toList 65 ["error".toList]
  let dump ← asserting said (hexdumpBytes (List.ofFn f.bytes))
  globalPrint polls [dump]

/-- `efi_main` up to the exit from the boot services. -/
def underFirmware (polls : ℕ) : Prog MemoryMapHolder := do
  announce said f polls
  let _ ← asserting said (bootScreen font f.mode f.frame)
  asserting said (ended f.exitLoop)

/-- `efi_main`. What is handed over goes with the map of the exit. -/
def efiMain (h : Handover) (fuel polls : ℕ) : Prog Unit := do
  let map ← underFirmware said font f polls
  behindFirmware {h with map := map} fuel polls

/-- The kernel with its panic handler. -/
def kernel (h : Handover) (fuel : ℕ) : ℕ → Prog Unit :=
  onPanic panicHandler (efiMain said font f h fuel)

end Program

/-- The map of the firmware behind the exit. -/
def Firmware.inForce (f : Firmware) : FirmwareMap := f.exitLoop.current.map

/-- The holder behind the exit. -/
def Firmware.holder (f : Firmware) : MemoryMapHolder := f.exitLoop.holder

/-- The firmware has both protocols, and its memory map fits the buffer and
stays as it is from the fetch to the exit. -/
structure Serves (f : Firmware) (image : LoadedImage) (gp : GraphicsMode) : Prop where
  image : f.loadedImage = some image
  screen : f.mode = some gp
  mode : ModeOk gp
  settled : Undisturbed f.events
  fits : (firstFetch f.current f.events).size ≤ MemoryMapHolder.new.memoryMapSize

/-- A printed line. -/
def line (args : List (List Char)) : List Char := args.flatten++['\n']

/-- What is printed before the image is located. -/
def greeting (f : Firmware) : List Char :=
  line ["Booting WasabiOS ... \n".toList]++
    (line ["image_handle: ".toList,address f.imageHandle,['\n']]++
      line ["efi_system_table: ".toList,pointer f.systemTable,['\n']])

/-- What is printed from then on, with the dump of the table at the end. -/
def imageText (f : Firmware) (image : LoadedImage) : List Char :=
  line ["image_base: ".toList,address image.imageBase]++
    (line ["image_size: ".toList,address image.imageSize]++
      (logText .info "src/main.rs".toList 63 ["info".toList]++
        (logText .warn "src/main.rs".toList 64 ["warn".toList]++
          (logText .error "src/main.rs".toList 65 ["error".toList]++
            (List.range 7).flatMap (row (List.ofFn f.bytes))))))

section Rules
variable {α β : Type} (said : String → List Char)

theorem sends_asserting (e : Eval α) (g : ℕ → α → Prog β) (a : α) (t : List Char)
    (r : Except Ending β) (he : e = .ok a) (hg : Sends (fun polls => g polls a) t r) :
    Sends (fun polls => asserting said e >>= g polls) t r := by
  subst he
  exact sends_bind _ g [] t a r (sends_pure a) hg

theorem sends_refused (e : Eval α) (g : ℕ → α → Prog β) (message : String)
    (he : e = .error (.panic message)) :
    Sends (fun polls => asserting said e >>= g polls) [] (.error (.panicked (said message))) := by
  subst he
  exact sends_ended _ g [] _ (sends_panic (said message))

end Rules

section Boot
variable (said : String → List Char) (font : FontTable) (f : Firmware)

theorem dump_rows : hexdumpBytes (List.ofFn f.bytes) =
    .ok ((List.range 7).flatMap (row (List.ofFn f.bytes))) := by
  rw [hexdumpBytes_rows _ (by rw [List.length_ofFn]; decide), List.length_ofFn]

theorem sends_announce (image : LoadedImage) (hi : f.loadedImage = some image) :
    Sends (announce said f) (greeting f++imageText f image) (.ok ()) := by
  have hdump := sends_print [(List.range 7).flatMap (row (List.ofFn f.bytes))]
  rw [List.flatten_singleton] at hdump
  rw [greeting, List.append_assoc, List.append_assoc]
  apply sends_seq _ _ _ _ _ (sends_println _)
  apply sends_seq _ _ _ _ _ (sends_println _)
  apply sends_seq _ _ _ _ _ (sends_println _)
  apply sends_asserting said _ _ (.ok image) _ _ (by rw [hi]; rfl)
  apply sends_asserting said _ _ image _ _ rfl
  apply sends_seq _ _ _ _ _ (sends_println _)
  apply sends_seq _ _ _ _ _ (sends_println _)
  apply sends_seq _ _ _ _ _ (sends_log .info _ 63 _)
  apply sends_seq _ _ _ _ _ (sends_log .warn _ 64 _)
  apply sends_seq _ _ _ _ _ (sends_log .error _ 65 _)
  exact sends_asserting said _ _ _ _ _ (dump_rows f) hdump

/-- The screen alone decides whether it can be drawn. -/
theorem screen_runs (gp : GraphicsMode) (hm : f.mode = some gp) (hgp : ModeOk gp) :
    (Wide gp.info → ∃ b, bootScreen font f.mode f.frame = .ok b) ∧
    (¬ Wide gp.info → ∃ message, bootScreen font f.mode f.frame = .error (.panic message)) := by
  obtain ⟨hdrawn,hrefused⟩ := (boot_screen_exact font f.frame).2 gp hgp
  rw [hm]
  refine ⟨fun hwide => ?_,hrefused⟩
  obtain ⟨b,hb,-⟩ := hdrawn hwide
  exact ⟨b,hb⟩

/-- The firmware lets the kernel go, or the screen has been too small before. -/
theorem sends_underFirmware (image : LoadedImage) (gp : GraphicsMode) (hs : Serves f image gp) :
    (Wide gp.info →
      Sends (underFirmware said font f) (greeting f++imageText f image) (.ok f.holder)) ∧
    (¬ Wide gp.info → ∃ text info,
      Sends (underFirmware said font f) text (.error (.panicked info))) := by
  obtain ⟨hdrawn,hrefused⟩ := screen_runs font f gp hs.screen hs.mode
  have hannounce := sends_announce said f image hs.image
  constructor
  · intro hwide
    obtain ⟨b,hb⟩ := hdrawn hwide
    have hret : f.exitLoop.kernel = .returned :=
      (undisturbed_run f.current _ f.events hs.settled hs.fits).1
    have hlast : Sends (fun _ => asserting said (ended f.exitLoop)) [] (.ok f.holder) := by
      simp only [ended, hret]
      exact sends_pure f.holder
    have hall := sends_seq _ _ _ _ _ hannounce (sends_asserting said _
      (fun _ (_ : Bitmap) => asserting said (ended f.exitLoop)) b [] _ hb hlast)
    rw [List.append_nil] at hall
    exact hall
  · intro hnarrow
    obtain ⟨message,hmessage⟩ := hrefused hnarrow
    exact ⟨_,_,sends_seq _ _ _ _ _ hannounce (sends_refused said _ _ message hmessage)⟩

variable (h : Handover) (fuel : ℕ)

/-- The log of a boot that passes. -/
def passText (image : LoadedImage) (ps : List ℕ) (value : UInt8) : List Char :=
  (greeting f++imageText f image)++bootLog {h with map := f.holder} ps value

theorem sends_efiMain (image : LoadedImage) (gp : GraphicsMode) (hs : Serves f image gp)
    (hconv : ConventionalContract f.inForce.descriptors) (hds : LowerHalf f.inForce.descriptors)
    (hsys : KeepsConvention h.callee) (n : ℕ) (hn : n ≤ 8100) (hstack : StackBound h.callee n)
    (value : UInt8) (hzero : h.memory 0 = .raw value)
    (hresident : ∀ x ∈ h.resident, x < endOfMem f.inForce.descriptors 0x100000000)
    (hload : ∀ byte, h.readNull (some byte) = .ok byte)
    (hf : f.inForce.descriptors.length+2*registeredBytes f.inForce.descriptors+40 < fuel) :
    (Wide gp.info ∧ ∃ ps bs,
      fits exceptionLayouts ((registeredRegions f.inForce.descriptors).map freeBlock) =
        some (ps,bs) ∧ bootTables (endOfMem f.inForce.descriptors 0x100000000) ≤ pageYields bs ∧
      Sends (efiMain said font f h fuel) (passText f h image ps value)
        (.error (.exited .success))) ∨
    (¬ (Wide gp.info ∧ Roomy f.inForce.descriptors) ∧ ∃ text info,
      Sends (efiMain said font f h fuel) text (.error (.panicked info))) := by
  obtain ⟨hpass,hstop⟩ := sends_underFirmware said font f image gp hs
  by_cases hwide : Wide gp.info
  · have hunder := hpass hwide
    have hexit : UefiContract f.holder ∧ descriptors f.holder = f.inForce.descriptors :=
      exit_contract f.current _ le_rfl f.events hs.settled hs.fits
    obtain ⟨hcontract,hlist⟩ := hexit
    rw [← hlist] at hconv hds hresident hf ⊢
    rcases sends_behindFirmware {h with map := f.holder} fuel hcontract hconv hds hsys n hn hstack
      value hzero hresident hload hf with ⟨ps,bs,hfit,hpages,hbehind⟩ | ⟨hfull,text,hbehind⟩
    · exact Or.inl ⟨hwide,ps,bs,hfit,hpages,sends_bind _ _ _ _ _ _ hunder hbehind⟩
    · exact Or.inr ⟨fun hall => hfull hall.2,_,_,sends_bind _ _ _ _ _ _ hunder hbehind⟩
  · obtain ⟨text,info,hunder⟩ := hstop hwide
    exact Or.inr ⟨fun hall => hwide hall.1,text,info,sends_ended _ _ _ _ hunder⟩

/-- Where the firmware serves the kernel, the image and the stack are mapped and
address zero is read like any other: the verdict of the launcher, and the log. -/
theorem efi_main_verdict (image : LoadedImage) (gp : GraphicsMode) (hs : Serves f image gp)
    (hconv : ConventionalContract f.inForce.descriptors) (hds : LowerHalf f.inForce.descriptors)
    (hsys : KeepsConvention h.callee) (n : ℕ) (hn : n ≤ 8100) (hstack : StackBound h.callee n)
    (value : UInt8) (hzero : h.memory 0 = .raw value)
    (hresident : ∀ x ∈ h.resident, x < endOfMem f.inForce.descriptors 0x100000000)
    (hload : ∀ byte, h.readNull (some byte) = .ok byte)
    (hf : f.inForce.descriptors.length+2*registeredBytes f.inForce.descriptors+40 < fuel)
    (incoming : ℕ → UInt8) (hfair : Fair incoming) :
    ∃ N bus code status,
      (∀ polls ≥ N, kernel said font f h fuel polls ⟨incoming,[]⟩ =
        .ok (.error (.exited code),bus)) ∧
      qemuStatus bus.trace = some status ∧ launchQemu status = verdict code ∧
      (code = .success ↔ Wide gp.info ∧ Roomy f.inForce.descriptors) ∧
      (code = .success → ∃ ps bs,
        fits exceptionLayouts ((registeredRegions f.inForce.descriptors).map freeBlock) =
          some (ps,bs) ∧
        received 0x3f8 bus.trace =
          (passText f h image ps value).map (fun c => UInt8.ofNat c.toNat)) ∧
      (code = .fail → ∃ text info, received 0x3f8 bus.trace =
        (text++panicText info).map (fun c => UInt8.ofNat c.toNat)) := by
  rcases sends_efiMain said font f h fuel image gp hs hconv hds hsys n hn hstack value hzero
    hresident hload hf with ⟨hwide,ps,bs,hfit,hpages,hsends⟩ | ⟨hfails,text,info,hsends⟩
  · have hcalm := sends_calm panicHandler _ _ _ hsends (fun info hinfo => by cases hinfo)
    obtain ⟨N,bus,hrun,hlog,hstatus⟩ := sends_status _ _ _ hcalm incoming hfair
    obtain ⟨status,hexit,hverdict⟩ := exit_verdict Unit .success
    exact ⟨N,bus,.success,status,hrun,hstatus.trans hexit,hverdict,
      iff_of_true rfl ⟨hwide,ps,bs,hfit,hpages⟩,
      fun _ => ⟨ps,bs,hfit,hlog⟩,(fun hcode => by cases hcode)⟩
  · have hpanic := sends_onPanic panicHandler _ _ _ _ _ hsends (sends_panicHandler info)
    obtain ⟨N,bus,hrun,hlog,hstatus⟩ := sends_status _ _ _ hpanic incoming hfair
    obtain ⟨status,hexit,hverdict⟩ := exit_verdict Unit .fail
    exact ⟨N,bus,.fail,status,hrun,hstatus.trans hexit,hverdict,
      iff_of_false (fun hcode => by cases hcode) hfails,(fun hcode => by cases hcode),
      fun _ => ⟨text,info,hlog⟩⟩

end Boot

theorem clobbering_bound : StackBound clobbering 0 := fun _ => confined_refl _ _ _

/-- The map is fetched once, and the firmware agrees at once. -/
def sampleFirmware : Firmware where
  imageHandle := 0xbec4e498
  systemTable := 0xbf9ee018
  bytes := fun _ => 0x49
  loadedImage := some ⟨0xbe316000,0x71000⟩
  mode := some vga
  frame := fun _ => 7
  current := ⟨wideRegion,1⟩
  events := [.call,.call]

def sampleHandover : Handover where
  map := MemoryMapHolder.new
  memory := fun _ => .raw 0
  contents := firmwareTables
  cr3 := 0x1000
  cpu := sampleCpu
  entry := sampleEntries
  callee := clobbering
  interrupted := ⟨fun _ => 7,fun _ => 1,0x4000,0x202⟩
  cr2 := 0
  resident := [0xbe316000,0xbfe9f000]
  readNull := deref
  fatal := "fatal exception".toList
  unexpected := "unexpected interrupt!".toList
  oom := "memory allocation failed".toList

theorem efi_main_verdict_vga :
    ∃ N bus code status,
      (∀ polls ≥ N, kernel String.toList blocks sampleFirmware sampleHandover (2^42) polls
        ⟨fun _ => 0x20,[]⟩ = .ok (.error (.exited code),bus)) ∧
      qemuStatus bus.trace = some status ∧ launchQemu status = verdict code ∧
      (code = .success ↔ Wide vga.info ∧ Roomy wideRegion.descriptors) ∧
      (code = .success → ∃ ps bs,
        fits exceptionLayouts ((registeredRegions wideRegion.descriptors).map freeBlock) =
          some (ps,bs) ∧
        received 0x3f8 bus.trace =
          (passText sampleFirmware sampleHandover ⟨0xbe316000,0x71000⟩ ps 0).map
            (fun c => UInt8.ofNat c.toNat)) ∧
      (code = .fail → ∃ text info, received 0x3f8 bus.trace =
        (text++panicText info).map (fun c => UInt8.ofNat c.toNat)) := by
  have hconv := wideMap_conventional
  have hlow := wideMap_lowerHalf
  rw [shows_descriptors _ _ wideMap_shows] at hconv hlow
  have hserves : Serves sampleFirmware ⟨0xbe316000,0x71000⟩ vga :=
    ⟨rfl,rfl,⟨by decide,by decide,by decide,by decide⟩,trivial,by decide⟩
  apply efi_main_verdict String.toList blocks sampleFirmware sampleHandover (2^42) _ vga hserves
    hconv hlow (fun _ _ _ _ _ _ => clobbering_sysV _) 0 (by decide) clobbering_bound 0 rfl ?_
    (fun _ => rfl) ?_ _ (fun _ => ⟨0,by decide⟩)
  · have hend := endOfMem_ge wideRegion.descriptors 0x100000000
    have hlow4 : ∀ x ∈ sampleHandover.resident, x < 0x100000000 := by decide
    exact fun x hx => (hlow4 x hx).trans_le hend
  · change wideRegion.descriptors.length+2*registeredBytes wideRegion.descriptors+40 < 2^42
    rw [wideRegion, padded_descriptors]
    decide

end Wasabi.Boot.EfiMain
