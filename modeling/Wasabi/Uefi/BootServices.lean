import Wasabi.Uefi.Encoding

/-!
# Leaving boot services

The kernel fetches the memory map and asks to exit with its key. The firmware
may replace its map between any two calls of the kernel, and it may refuse
either of them. The kernel has a name for one status only, so all its
comparisons of a status hold: the assertion on the fetch cannot fail, and a
refused exit ends the loop like one that the firmware agrees to.
-/

set_option autoImplicit false

namespace Wasabi.Uefi.BootServices
open Wasabi.Rust Wasabi.Uefi.MemoryMap Wasabi.Uefi.Encoding

/-- What the firmware answers. -/
inductive FirmwareStatus where
  | success
  | bufferTooSmall
  | invalidParameter
  | notFound
  deriving DecidableEq, Repr

/-- The statuses of the kernel. -/
inductive EfiStatus where
  | success
  deriving DecidableEq, Repr

/-- A status as the kernel sees it. Its enumeration has no other value, so the
derived comparison has nothing to tell it by. -/
def FirmwareStatus.seen (_ : FirmwareStatus) : EfiStatus := .success

/-- A protocol behind the pointer that a service of the firmware stores. A
service that fails leaves it null, and what is behind it is read all the same. -/
def locate {α : Type} (answer : Option α) (message : String) : Eval (Except String α) :=
  let status := if answer.isSome then FirmwareStatus.success else FirmwareStatus.notFound
  if status.seen ≠ EfiStatus.success then .ok (.error message)
  else do
    let protocol ← deref answer
    pure (.ok protocol)

/-- The map of the firmware together with its key. -/
structure Current where
  map : FirmwareMap
  key : ℕ

def Current.size (c : Current) : ℕ := c.map.bytes.length

/-- What a successful fetch leaves in the holder. -/
def fill (c : Current) (holder : MemoryMapHolder) : MemoryMapHolder where
  memoryMapBuffer := copyInto c.map.bytes holder.memoryMapBuffer
  memoryMapSize := c.size
  mapKey := c.key
  descriptorSize := c.map.descriptorSize
  descriptorVersion := c.map.descriptorVersion

/-- The size field of the holder goes in as capacity and comes out as size. -/
def getMemoryMap (c : Current) (holder : MemoryMapHolder) : FirmwareStatus × MemoryMapHolder :=
  if c.size ≤ holder.memoryMapSize then (.success,fill c holder) else (.bufferTooSmall,holder)

/-- The answer, with the map that is in force from then on. -/
def exitBootServices (c : Current) (mapKey : ℕ) : FirmwareStatus × Option FirmwareMap :=
  if mapKey = c.key then (.success,some c.map) else (.invalidParameter,none)

/-- The next call of `exit_from_efi_boot_services`, or how it ended. -/
inductive Kernel where
  | getMemoryMap
  | exitBootServices
  | returned
  | panicked
  deriving DecidableEq, Repr

/-- `exited` is the map in force when the firmware agreed to exit. -/
structure System where
  current : Current
  exited : Option FirmwareMap
  kernel : Kernel
  holder : MemoryMapHolder

inductive Event where
  | change (current : Current)
  | call

/-- One call of the loop in `exit_from_efi_boot_services`. -/
def callStep (s : System) : System :=
  match s.kernel with
  | .getMemoryMap =>
    let (status,holder) := getMemoryMap s.current s.holder
    if status.seen = EfiStatus.success then {s with kernel := .exitBootServices, holder := holder}
    else {s with kernel := .panicked, holder := holder}
  | .exitBootServices =>
    let (status,exited) := exitBootServices s.current s.holder.mapKey
    if status.seen = EfiStatus.success then {s with kernel := .returned, exited := exited}
    else {s with kernel := .getMemoryMap, exited := exited}
  | .returned => s
  | .panicked => s

/-- A successful exit freezes the map. -/
def step (s : System) : Event → System
  | .change c => if s.exited.isSome then s else {s with current := c}
  | .call => callStep s

def run (s : System) (events : List Event) : System := events.foldl step s

def start (c : Current) (holder : MemoryMapHolder) : System := ⟨c,none,.getMemoryMap,holder⟩

theorem run_cons (s : System) (e : Event) (events : List Event) :
    run s (e::events) = run (step s e) events := rfl

/-- What the firmware holds when the kernel first calls. -/
def firstFetch (c : Current) : List Event → Current
  | .change c'::events => firstFetch c' events
  | _ => c

/-- No change falls between the first call and the second. -/
def Undisturbed : List Event → Prop
  | .change _::events => Undisturbed events
  | .call::.call::_ => True
  | _ => False

/-- What one call does. The comparison of the status is behind it. -/
inductive Called (s : System) : System → Prop where
  | fetched (hk : s.kernel = .getMemoryMap) : Called s
      {s with kernel := .exitBootServices, holder := (getMemoryMap s.current s.holder).2}
  | exited (hk : s.kernel = .exitBootServices) : Called s
      {s with kernel := .returned, exited := (exitBootServices s.current s.holder.mapKey).2}
  | ended (hk : s.kernel = .returned ∨ s.kernel = .panicked) : Called s s

@[simp] theorem seen_success (status : FirmwareStatus) : status.seen = .success := rfl

theorem step_called (s : System) : Called s (step s .call) := by
  rw [step, callStep]
  cases hk : s.kernel with
  | getMemoryMap =>
    simp only [seen_success, if_true]
    exact .fetched hk
  | exitBootServices =>
    simp only [seen_success, if_true]
    exact .exited hk
  | returned => exact .ended (Or.inl hk)
  | panicked => exact .ended (Or.inr hk)

theorem change_kept (s : System) (c : Current) : (step s (.change c)).kernel = s.kernel ∧
    (step s (.change c)).holder = s.holder ∧ (step s (.change c)).exited = s.exited := by
  rw [step]
  split_ifs
  · exact ⟨rfl,rfl,rfl⟩
  · exact ⟨rfl,rfl,rfl⟩

theorem running_step (s : System) (h : s.kernel ≠ .panicked) (e : Event) :
    (step s e).kernel ≠ .panicked := by
  cases e with
  | change c =>
    rw [(change_kept s c).1]
    exact h
  | call =>
    have hcall := step_called s
    generalize step s .call = s' at hcall ⊢
    cases hcall with
    | fetched hk => simp
    | exited hk => simp
    | ended hk => exact h

theorem running_run (s : System) (h : s.kernel ≠ .panicked) (events : List Event) :
    (run s events).kernel ≠ .panicked := by
  induction events generalizing s with
  | nil => exact h
  | cons e events ih => exact ih _ (running_step s h e)

/-- The kernel does not fetch again. -/
theorem holder_step (s : System) (h : s.kernel ≠ .getMemoryMap) (e : Event) :
    (step s e).kernel ≠ .getMemoryMap ∧ (step s e).holder = s.holder := by
  cases e with
  | change c =>
    obtain ⟨hkernel,hholder,-⟩ := change_kept s c
    rw [hkernel]
    exact ⟨h,hholder⟩
  | call =>
    have hcall := step_called s
    generalize step s .call = s' at hcall ⊢
    cases hcall with
    | fetched hk => exact absurd hk h
    | exited hk => exact ⟨by simp,rfl⟩
    | ended hk => exact ⟨h,rfl⟩

theorem holder_run (s : System) (h : s.kernel ≠ .getMemoryMap) (events : List Event) :
    (run s events).holder = s.holder := by
  induction events generalizing s with
  | nil => rfl
  | cons e events ih =>
    obtain ⟨hkernel,hholder⟩ := holder_step s h e
    rw [run_cons, ih _ hkernel, hholder]

/-- Behind the loop nothing is changed but the map of a firmware that has not
agreed to exit. -/
theorem returned_step (s : System) (h : s.kernel = .returned) (e : Event) :
    (step s e).kernel = .returned ∧ (step s e).exited = s.exited ∧
      (s.exited.isSome → (step s e).current = s.current) := by
  cases e with
  | change c =>
    obtain ⟨hkernel,-,hexited⟩ := change_kept s c
    refine ⟨hkernel.trans h,hexited,fun hs => ?_⟩
    rw [step, if_pos hs]
  | call =>
    have hcall := step_called s
    generalize step s .call = s' at hcall ⊢
    cases hcall with
    | fetched hk => simp [h] at hk
    | exited hk => simp [h] at hk
    | ended hk => exact ⟨h,rfl,fun _ => rfl⟩

theorem returned_run (s : System) (h : s.kernel = .returned) (events : List Event) :
    (run s events).kernel = .returned ∧ (run s events).exited = s.exited ∧
      (s.exited.isSome → (run s events).current = s.current) := by
  induction events generalizing s with
  | nil => exact ⟨h,rfl,fun _ => rfl⟩
  | cons e events ih =>
    obtain ⟨hkernel,hexited,hcurrent⟩ := returned_step s h e
    obtain ⟨hkernel',hexited',hcurrent'⟩ := ih _ hkernel
    rw [run_cons, hexited', hexited]
    refine ⟨hkernel',rfl,fun hs => ?_⟩
    rw [hcurrent' (by rw [hexited]; exact hs), hcurrent hs]

/-- The holder that the loop leaves is the one of its only fetch. -/
theorem returned_holder (c : Current) (holder : MemoryMapHolder) (events : List Event)
    (hret : (run (start c holder) events).kernel = .returned) :
    (run (start c holder) events).holder = (getMemoryMap (firstFetch c events) holder).2 := by
  induction events generalizing c with
  | nil => simp [run, start] at hret
  | cons e events ih =>
    cases e with
    | change c' => exact ih c' hret
    | call => exact holder_run _ (by simp [step, callStep, start, seen_success]) events

end Wasabi.Uefi.BootServices
