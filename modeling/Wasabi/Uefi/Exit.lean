import Wasabi.Uefi.BootServices

/-!
# The map in force at exit

A fetch is still current at the exit if no change came in between, because a
change brings a key that was never issued before. The holder then shows the
descriptors of the map in force and nothing that an earlier and longer map
left in the buffer. With a change in between the firmware refuses to exit, and
the kernel goes on with a map that is out of date.
-/

set_option autoImplicit false

namespace Wasabi.Uefi.Exit
open Wasabi.Rust Wasabi.Uefi.MemoryMap Wasabi.Uefi.Encoding Wasabi.Uefi.BootServices

/-- Every change brings a key that is not among those issued so far. -/
def FreshKeys : List ℕ → List Event → Prop
  | _, [] => True
  | issued, .change c::events => c.key ∉ issued ∧ FreshKeys (c.key::issued) events
  | issued, .call::events => FreshKeys issued events

theorem fill_shows (c : Current) (holder : MemoryMapHolder) (h : c.size ≤ memoryMapBufferSize) :
    Shows (fill c holder) c.map.descriptors :=
  copied_shows c.map _ holder.memoryMapBuffer rfl rfl rfl h

/-- Without a change in between the firmware agrees to exit. -/
theorem undisturbed_run (c : Current) (holder : MemoryMapHolder) (events : List Event)
    (hu : Undisturbed events) (hfit : (firstFetch c events).size ≤ holder.memoryMapSize) :
    (run (start c holder) events).kernel = .returned ∧
      (run (start c holder) events).exited = some (firstFetch c events).map ∧
      (run (start c holder) events).current = firstFetch c events := by
  induction events generalizing c with
  | nil => exact hu.elim
  | cons e events ih =>
    cases e with
    | change c' => exact ih c' hu hfit
    | call =>
      cases events with
      | nil => exact hu.elim
      | cons e events =>
        cases e with
        | change c' => exact hu.elim
        | call =>
          have hfetch : step (step (start c holder) .call) .call =
              ⟨c,some c.map,.returned,fill c holder⟩ := by
            simp only [firstFetch] at hfit
            simp [step, callStep, start, getMemoryMap, exitBootServices, hfit, fill]
          rw [run_cons, run_cons, hfetch]
          obtain ⟨hkernel,hexited,hcurrent⟩ :=
            returned_run ⟨c,some c.map,.returned,fill c holder⟩ rfl events
          exact ⟨hkernel,hexited,hcurrent rfl⟩

/-- Once the fetched key is out of date the firmware refuses to exit. -/
theorem stale_run (issued : List ℕ) (s : System) (hk : s.kernel = .exitBootServices)
    (hexited : s.exited = none) (hm : s.holder.mapKey ∈ issued)
    (hstale : s.holder.mapKey ≠ s.current.key) (events : List Event)
    (hfresh : FreshKeys issued events) : (run s events).exited = none := by
  induction events generalizing issued s with
  | nil => exact hexited
  | cons e events ih =>
    cases e with
    | change c =>
      have hstep : step s (.change c) = {s with current := c} := by
        rw [step, if_neg (by simp [hexited])]
      rw [run_cons, hstep]
      apply ih (c.key::issued) {s with current := c} hk hexited (List.mem_cons_of_mem _ hm) _
        hfresh.2
      exact fun heq => hfresh.1 (heq ▸ hm)
    | call =>
      have hstep : step s .call = {s with kernel := .returned, exited := none} := by
        simp [step, callStep, hk, exitBootServices, hstale]
      rw [run_cons, hstep]
      exact (returned_run _ rfl events).2.1

/-- With a change in between it does not agree. -/
theorem disturbed_run (issued : List ℕ) (c : Current) (hc : c.key ∈ issued)
    (holder : MemoryMapHolder) (events : List Event) (hfresh : FreshKeys issued events)
    (hu : ¬ Undisturbed events) (hfit : (firstFetch c events).size ≤ holder.memoryMapSize) :
    (run (start c holder) events).exited = none := by
  induction events generalizing issued c with
  | nil => rfl
  | cons e events ih =>
    cases e with
    | change c' => exact ih (c'.key::issued) c' List.mem_cons_self hfresh.2 hu hfit
    | call =>
      have hfetch : step (start c holder) .call = ⟨c,none,.exitBootServices,fill c holder⟩ := by
        simp only [firstFetch] at hfit
        simp [step, callStep, start, getMemoryMap, hfit]
      rw [run_cons, hfetch]
      cases events with
      | nil => rfl
      | cons e events =>
        cases e with
        | call => exact absurd trivial hu
        | change c' =>
          apply stale_run (c'.key::issued) ⟨c',none,.exitBootServices,fill c holder⟩ rfl rfl
            (List.mem_cons_of_mem _ hc) _ events hfresh.2
          exact fun heq => hfresh.1 (heq ▸ hc)

/-- The descriptor that a buffer of zeros shows. -/
def zeroDescriptor : EfiMemoryDescriptor := ⟨.reserved,0,0,0,0⟩

/-- Without a stride the cursor of a new holder stays where it is. -/
theorem new_next : MemoryMapIterator.next MemoryMapHolder.new.iter =
    .ok (some zeroDescriptor,MemoryMapHolder.new.iter) := by
  have hd : decodeDescriptor MemoryMapHolder.new.memoryMapBuffer 0 = some zeroDescriptor := by
    decide
  rw [MemoryMapIterator.next, if_neg (by decide)]
  simp only [MemoryMapHolder.iter, hd, deref_some, ok_bind]
  rfl

theorem enumerate_new (fuel : ℕ) : enumerate fuel MemoryMapHolder.new = .error .outOfFuel := by
  have hnever : ∀ seen : List EfiMemoryDescriptor, forEach (fun seen d => pure (seen++[d])) fuel
      MemoryMapHolder.new.iter seen = .error .outOfFuel := by
    induction fuel with
    | zero => exact fun _ => rfl
    | succ fuel ih =>
      intro seen
      rw [forEach, new_next]
      exact ih _
  exact hnever []

/-- Iteration over the holder yields the descriptors of the map in force. -/
def HandsOver (s : System) : Prop :=
  ∃ f : FirmwareMap, s.exited = some f ∧ s.current.map = f ∧
    ∀ fuel, f.descriptors.length < fuel → enumerate fuel s.holder = .ok f.descriptors

/-- When the loop has returned, the holder enumerates the map that was in force
when the firmware agreed to exit exactly if the fetch succeeded and no change
fell between it and the exit. -/
theorem hands_over_iff (c : Current) (holder : MemoryMapHolder)
    (hcap : holder.memoryMapSize ≤ memoryMapBufferSize) (events : List Event)
    (hfresh : FreshKeys [c.key] events)
    (hholder : holder = MemoryMapHolder.new ∨
      (firstFetch c events).size ≤ holder.memoryMapSize)
    (hret : (run (start c holder) events).kernel = .returned) :
    HandsOver (run (start c holder) events) ↔
      Undisturbed events ∧ (firstFetch c events).size ≤ holder.memoryMapSize := by
  have hleft := returned_holder c holder events hret
  by_cases hfit : (firstFetch c events).size ≤ holder.memoryMapSize
  · rw [getMemoryMap, if_pos hfit] at hleft
    by_cases hu : Undisturbed events
    · obtain ⟨-,hexited,hcurrent⟩ := undisturbed_run c holder events hu hfit
      refine iff_of_true ⟨_,hexited,congrArg Current.map hcurrent,fun fuel hf => ?_⟩ ⟨hu,hfit⟩
      rw [hleft]
      exact enumerate_shown _ _ (fill_shows _ holder (hfit.trans hcap)) fuel hf
    · refine iff_of_false ?_ (fun h => hu h.1)
      rintro ⟨f,hexited,-⟩
      rw [disturbed_run [c.key] c List.mem_cons_self holder events hfresh hu hfit] at hexited
      cases hexited
  · have hnew := hholder.resolve_right hfit
    rw [getMemoryMap, if_neg hfit, hnew] at hleft
    refine iff_of_false ?_ (fun h => hfit h.2)
    rintro ⟨f,-,-,hall⟩
    have hsome := hall _ (Nat.lt_succ_self _)
    rw [← hnew] at hleft
    rw [hleft, hnew, enumerate_new] at hsome
    cases hsome

def conventionalPages (start pages : ℕ) : EfiMemoryDescriptor :=
  ⟨.conventionalMemory,start,0,pages,0xf⟩

def oneRegion : FirmwareMap := .padded [conventionalPages 0x1000 2] (by decide)

def twoRegions : FirmwareMap :=
  .padded [conventionalPages 0x1000 2,conventionalPages 0x100000 16] (by decide)

/-- One region of a tebibyte. -/
def wideRegion : FirmwareMap := .padded [conventionalPages 0x200000000 0x10000000] (by decide)

def wideMap : MemoryMapHolder := fill ⟨wideRegion,1⟩ MemoryMapHolder.new

theorem wideMap_shows : Shows wideMap wideRegion.descriptors := fill_shows _ _ (by decide)

theorem wideMap_descriptors :
    descriptors wideMap = [conventionalPages 0x200000000 0x10000000] := by
  rw [shows_descriptors _ _ wideMap_shows, wideRegion, padded_descriptors]

theorem wideMap_contract : UefiContract wideMap := shows_contract _ _ wideMap_shows (by decide)

/-- The map shrinks between the fetch and the exit. -/
def shrinking : List Event := [.call,.change ⟨oneRegion,2⟩,.call]

theorem hands_over_shrunk :
    (run (start ⟨twoRegions,1⟩ MemoryMapHolder.new) shrinking).kernel = .returned ∧
      (HandsOver (run (start ⟨twoRegions,1⟩ MemoryMapHolder.new) shrinking) ↔
        Undisturbed shrinking ∧
          (firstFetch ⟨twoRegions,1⟩ shrinking).size ≤ MemoryMapHolder.new.memoryMapSize) :=
  ⟨by decide,hands_over_iff ⟨twoRegions,1⟩ MemoryMapHolder.new le_rfl shrinking
    ⟨by decide,trivial⟩ (Or.inl rfl) (by decide)⟩

/-- The firmware refuses to exit, and the loop returns with the larger map. -/
theorem shrunk_refused :
    ¬ ∀ (c : Current) (events : List Event), FreshKeys [c.key] events →
      (run (start c MemoryMapHolder.new) events).kernel = .returned →
      HandsOver (run (start c MemoryMapHolder.new) events) := by
  intro h
  obtain ⟨f,hexited,-⟩ := h ⟨twoRegions,1⟩ shrinking ⟨by decide,trivial⟩ (by decide)
  have hnone : (run (start ⟨twoRegions,1⟩ MemoryMapHolder.new) shrinking).exited = none := rfl
  rw [hnone] at hexited
  cases hexited

/-- The holder that the loop hands over then meets the contract of its readers. -/
theorem exit_contract (c : Current) (holder : MemoryMapHolder)
    (hcap : holder.memoryMapSize ≤ memoryMapBufferSize) (events : List Event)
    (hu : Undisturbed events) (hfit : (firstFetch c events).size ≤ holder.memoryMapSize) :
    UefiContract (run (start c holder) events).holder ∧
      descriptors (run (start c holder) events).holder =
        (run (start c holder) events).current.map.descriptors := by
  obtain ⟨hret,-,hcurrent⟩ := undisturbed_run c holder events hu hfit
  have hleft := returned_holder c holder events hret
  rw [getMemoryMap, if_pos hfit] at hleft
  have hs := fill_shows (firstFetch c events) holder (hfit.trans hcap)
  rw [hleft, hcurrent]
  exact ⟨shows_contract _ _ hs (FirmwareMap.wide _),shows_descriptors _ _ hs⟩

/-- Whatever the firmware answers and does to its map, the assertion on the
status of the fetch does not fail. -/
theorem never_panics (c : Current) (holder : MemoryMapHolder) (events : List Event) :
    (run (start c holder) events).kernel ≠ .panicked :=
  running_run (start c holder) (by simp [start]) events

end Wasabi.Uefi.Exit
