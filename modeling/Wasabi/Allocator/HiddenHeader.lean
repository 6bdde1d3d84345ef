import Wasabi.Allocator.Behaviour

/-!
# The header in front of a live allocation

Releasing a pointer finds its header by subtraction alone. The header is in
the list for as long as the allocation is live, whatever else the client does,
and the release clears its flag and touches nothing else.
-/

set_option autoImplicit false

namespace Wasabi.Allocator.HiddenHeader
open Wasabi.Rust Wasabi.WordBits Wasabi.ObjectMemory Wasabi.Tiling Wasabi.Uefi.MemoryMap
open Wasabi.Allocator.FirstFit Wasabi.Allocator.Provide Wasabi.Allocator.BlockList
open Wasabi.Allocator.Registration Wasabi.Allocator.Runs Wasabi.Allocator.Safety
open Wasabi.Allocator.Behaviour

/-- The operation is the release of this allocation. -/
def Frees (s : Client) (a : Allocation) : Op → Prop
  | .dealloc index => s.live[index]? = some a
  | _ => False

/-- No operation of the run releases the allocation. -/
def Spared (fuel : ℕ) (a : Allocation) : Client → List Op → Prop
  | _, [] => True
  | s, op::ops => ¬ Frees s a op ∧ ∀ s', step fuel s op = .ok s' → Spared fuel a s' ops

theorem step_keeps_live (fuel : ℕ) (s s' : Client) (op : Op) (h : step fuel s op = .ok s')
    (a : Allocation) (ha : a ∈ s.live) (hn : ¬ Frees s a op) : a ∈ s'.live := by
  cases op with
  | alloc layout =>
    obtain ⟨⟨heap,p⟩,-,h⟩ := bind_ok _ _ _ h
    simp only at h
    split_ifs at h
    · cases h
      exact ha
    · cases h
      exact List.mem_cons_of_mem _ ha
  | dealloc index =>
    simp only [step] at h
    cases hidx : s.live[index]? with
    | none =>
      rw [hidx] at h
      cases h
      exact ha
    | some c =>
      rw [hidx] at h
      obtain ⟨heap,-,h⟩ := bind_ok _ _ _ h
      cases h
      obtain ⟨i,hi⟩ := List.mem_iff_getElem?.mp ha
      apply List.mem_eraseIdx_iff_getElem?.mpr
      refine ⟨i,?_,hi⟩
      rintro rfl
      exact hn hi
  | poke index offset byte =>
    simp only [step] at h
    cases hidx : s.live[index]? with
    | none =>
      rw [hidx] at h
      cases h
      exact ha
    | some c =>
      simp only [hidx] at h
      split_ifs at h
      · cases h
        exact ha
      · cases h
        exact ha

theorem run_keeps_live (fuel : ℕ) (ops : List Op) (s s' : Client)
    (h : runFrom fuel s ops = .ok s') (a : Allocation) (ha : a ∈ s.live)
    (hsp : Spared fuel a s ops) : a ∈ s'.live := by
  induction ops generalizing s with
  | nil =>
    cases h
    exact ha
  | cons op ops ih =>
    obtain ⟨s1,h1,h2⟩ := bind_ok _ _ _ h
    exact ih s1 h2 (step_keeps_live fuel s s1 op h1 a ha hsp.1) (hsp.2 s1 h1)

theorem release_split (pre post : List Block) (b : Block)
    (hd : ((pre++b::post).map Block.addr).Nodup) :
    (pre++b::post).map (release b.addr) = pre++{b with isAllocated := false}::post := by
  rw [List.map_append, List.map_cons, List.nodup_append] at hd
  obtain ⟨-,hbp,hpre⟩ := hd
  have hother : ∀ c ∈ pre++post, release b.addr c = c := by
    intro c hc
    apply release_other
    rcases List.mem_append.mp hc with hc | hc
    · exact hpre _ (List.mem_map_of_mem hc) _ List.mem_cons_self
    · exact fun he => (List.nodup_cons.mp hbp).1 (he ▸ List.mem_map_of_mem hc)
  rw [List.map_append, List.map_cons, List.map_congr_left (g := id)
    (fun c hc => hother c (List.mem_append_left _ hc)), List.map_id, List.map_congr_left (g := id)
    (fun c hc => hother c (List.mem_append_right _ hc)), List.map_id, release, if_pos rfl]

theorem split_apart (pre post : List Block) (b : Block) (hs : Separate (pre++b::post)) (c : Block)
    (hc : c ∈ pre++post) : Apart (c.addr,c.stop) (b.addr,b.stop) := by
  obtain ⟨-,hafter,hbefore⟩ := List.pairwise_append.mp hs
  rcases List.mem_append.mp hc with hc | hc
  · exact hbefore c hc b List.mem_cons_self
  · exact apart_symm _ _ ((List.pairwise_cons.mp hafter).1 c hc)

/-- What the release of a live pointer finds and leaves, in one state. -/
theorem release_live (rs : List (ℕ × ℕ)) (hrs : rs.Pairwise Apart) (s : Client) (bs : List Block)
    (hi : Inv rs s bs) (a : Allocation) (ha : a ∈ s.live) :
    ∃ pre post h heap', bs = pre++blockOf a::post ∧
      load headerSize s.heap.memory (blockOf a).addr = some h ∧ ShowsBlock h (blockOf a) ∧
      dealloc s.heap a.ptr = .ok heap' ∧ heap'.firstHeader = s.heap.firstHeader ∧
      load headerSize heap'.memory (blockOf a).addr = some {h with isAllocated := false} ∧
      (∀ b ∈ pre++post,
        load headerSize heap'.memory b.addr = load headerSize s.heap.memory b.addr) ∧
      (∀ x, x < (blockOf a).addr ∨ a.ptr ≤ x → heap'.memory x = s.heap.memory x) ∧
      ∃ live, Inv rs {s with heap := heap', live := live}
        (pre++{blockOf a with isAllocated := false}::post) := by
  obtain ⟨index,hidx⟩ := List.mem_iff_getElem?.mp ha
  obtain ⟨pre,post,rfl⟩ := List.append_of_mem (hi.owned a ha)
  obtain ⟨h,hl,hs⟩ := LinkedList.segment_mem _ _ _ _ _ _ _ hi.chain (blockOf a) (by simp)
  obtain ⟨heap',hrun,hadv⟩ := dealloc_live rs hrs s _ hi index a hidx
  have hbe := (hi.sound a (hi.recorded a ha)).behind
  have hok := dealloc_ok s.heap a.ptr h hbe hl
  rw [hrun] at hok
  obtain rfl := Except.ok.inj hok
  have hsep := inv_separate rs hrs s _ hi
  have hinv := hadv.inv
  rw [release_split pre post _ (separate_nodup _ hsep hi.granular)] at hinv
  have hout : ∀ x, x < (blockOf a).addr ∨ a.ptr ≤ x →
      writeHeader s.heap.memory (a.ptr-headerSize) {h with isAllocated := false} x =
        s.heap.memory x := by
    intro x hx
    change x < a.ptr-headerSize ∨ a.ptr ≤ x at hx
    exact writeHeader_outside _ _ _ _ (by omega)
  refine ⟨pre,post,h,_,rfl,hl,hs,hrun,rfl,load_writeHeader _ _ _,?_,hout,_,hinv⟩
  intro b hb
  have hmem : b ∈ pre++blockOf a::post := by
    rcases List.mem_append.mp hb with hb | hb
    · exact List.mem_append_left _ hb
    · exact List.mem_append_right _ (List.mem_cons_of_mem _ hb)
  exact load_writeHeader_other _ _ _ _ (headers_apart b (blockOf a) (hi.granular b hmem).room
    (hi.granular _ (by simp)).room (split_apart pre post (blockOf a) hsep b hb))

/-- What is known of a block that was just released: it is the first that fits
every request which the blocks before it do not fit. -/
theorem release_offered (rs : List (ℕ × ℕ)) (hrs : rs.Pairwise Apart) (s : Client)
    (pre post : List Block) (b : Block) (hi : Inv rs s (pre++b::post)) (fuel : ℕ)
    (hf : (pre++b::post).length ≤ fuel) (layout : Layout) (r : ℕ)
    (hr : IsLeast (powersFrom layout.size) r) (hpos : 0 < layout.size)
    (hn : ∀ c ∈ pre, ¬ Fits c (max r 32) (max layout.align 32))
    (hb : Fits b (max r 32) (max layout.align 32)) :
    ∃ heap', allocWithOptions fuel s.heap layout =
      .ok (heap',alignDown (max layout.align 32) (b.stop-max r 32)) := by
  rw [← requestSize_least layout.size r hr] at hn hb ⊢
  obtain ⟨heap',hrun,-,-⟩ := alloc_first rs hrs s _ hi fuel hf layout hpos pre post b rfl hn hb
  exact ⟨heap',hrun⟩

/-- A live allocation that no later operation releases has its header in the
list until its own release, which clears the flag of that header and keeps
every other byte. From then on the first-fit search sees a free block there. -/
theorem hidden_header (map : MemoryMapHolder) (hmap : UefiContract map)
    (hconv : ConventionalContract (descriptors map)) (memory : HeaderMemory)
    (ops later : List Op) (fuel : ℕ)
    (hf : (descriptors map).length+2*(ops.length+later.length) < fuel)
    (s : Client) (hs : run fuel map memory ops = .ok s) (a : Allocation) (ha : a ∈ s.live)
    (hsp : Spared fuel a s later) (r : ℕ) (hr : IsLeast (powersFrom a.layout.size) r) :
    ∃ s' pre post h heap', runFrom fuel s later = .ok s' ∧ a ∈ s'.live ∧ 32 ≤ a.ptr ∧
      Chain s'.heap.memory s'.heap.firstHeader (pre++⟨a.ptr-32,max r 32+32,true⟩::post) ∧
      load 32 s'.heap.memory (a.ptr-32) = some h ∧
      h.size = max r 32+32 ∧ h.isAllocated = true ∧
      dealloc s'.heap a.ptr = .ok heap' ∧
      Chain heap'.memory heap'.firstHeader (pre++⟨a.ptr-32,max r 32+32,false⟩::post) ∧
      load 32 heap'.memory (a.ptr-32) = some {h with isAllocated := false} ∧
      (∀ b ∈ pre++post, load 32 heap'.memory b.addr = load 32 s'.heap.memory b.addr) ∧
      heap'.firstHeader = s'.heap.firstHeader ∧
      (∀ x, x < a.ptr-32 ∨ a.ptr ≤ x → heap'.memory x = s'.heap.memory x) ∧
      ∀ layout rl, IsLeast (powersFrom layout.size) rl → 0 < layout.size →
        (∀ c ∈ pre, ¬ Fits c (max rl 32) (max layout.align 32)) →
        max rl 32+64+max layout.align 32 ≤ max r 32+32 →
        ∃ heap'', allocWithOptions fuel heap' layout =
          .ok (heap'',alignDown (max layout.align 32) (a.ptr+max r 32-max rl 32)) := by
  have hrs := registered_apart _ hconv
  obtain ⟨s0,bs,hrun,hi,hlen⟩ := run_inv map _ (contract_shows map hmap) hconv memory ops fuel
    (by omega)
  rw [hs] at hrun
  obtain rfl := Except.ok.inj hrun
  obtain ⟨s',bs',hrun',hi',-,hlen'⟩ := run_advance _ hrs s bs hi later fuel (by omega)
  have ha' := run_keeps_live fuel later s s' hrun' a ha hsp
  obtain ⟨pre,post,h,heap',rfl,hl,hsb,hdealloc,hfirst,hl',hother,hout,live,hinv⟩ :=
    release_live _ hrs s' bs' hi' a ha'
  have hbe := (hi'.sound a (hi'.recorded a ha')).behind
  have hblock : blockOf a = ⟨a.ptr-32,max r 32+32,true⟩ := by
    rw [← requestSize_least _ r hr]
    rfl
  have hsize : (blockOf a).size = max r 32+32 := by rw [hblock]
  rw [hblock] at hinv
  refine ⟨s',pre,post,h,heap',hrun',ha',hbe,?_,hl,?_,?_,hdealloc,hinv.chain,hl',hother,hfirst,hout,
    ?_⟩
  · rw [← hblock]
    exact hi'.chain
  · rw [← hsize]
    exact hsb.1
  · exact hsb.2
  · intro layout rl hrl hpos hn hfit
    obtain ⟨heap'',hrun''⟩ := release_offered _ hrs _ pre post _ hinv fuel
      (by simp only [List.length_append, List.length_cons] at hlen' ⊢; omega) layout rl hrl hpos hn
      ⟨rfl,hfit⟩
    have hstop : a.ptr-32+(max r 32+32) = a.ptr+max r 32 := by
      have hH : headerSize = 32 := rfl
      omega
    refine ⟨heap'',hrun''.trans ?_⟩
    rw [← hstop]
    rfl

theorem smallMap_regions : registeredRegions (descriptors smallMap) = [(0x1000,0x3000)] := by
  rw [smallMap_descriptors]
  decide

theorem smallMap_grants : ∃ s a, run 20 smallMap (fun _ => .raw 0)
    [.alloc (layout 100 3 (by decide))] = .ok s ∧ s.live = [a] ∧ a.layout.size = 100 := by
  obtain ⟨s0,hboot,hlive,-,hi⟩ := boot_inv smallMap _ (contract_shows smallMap smallMap_contract)
    smallMap_conventional (fun _ => .raw 0) 20 (by rw [smallMap_descriptors]; decide)
  have hrs := registered_apart _ smallMap_conventional
  rw [smallMap_regions] at hi hrs
  obtain ⟨heap',halloc,hne,-⟩ := alloc_first _ hrs s0 _ hi 20 (by decide)
    (layout 100 3 (by decide)) (by decide) [] [] (freeBlock (0x1000,0x3000)) rfl (by simp)
    ⟨rfl,by decide⟩
  have hrun : run 20 smallMap (fun _ => .raw 0) [.alloc (layout 100 3 (by decide))] =
      .ok ⟨heap',[grantFrom (freeBlock (0x1000,0x3000)) (layout 100 3 (by decide))],
        grantFrom (freeBlock (0x1000,0x3000)) (layout 100 3 (by decide))::s0.granted⟩ := by
    rw [run, hboot, ok_bind, runFrom, List.foldlM_cons, step, halloc, ok_bind, ← hlive]
    simp only
    rw [if_neg hne]
    rfl
  exact ⟨_,_,hrun,rfl,rfl⟩

theorem hidden_header_small :
    ∃ s a, run 20 smallMap (fun _ => .raw 0) [.alloc (layout 100 3 (by decide))] = .ok s ∧
      a ∈ s.live ∧
      ∃ s' pre post h heap', runFrom 20 s [.alloc (layout 8 12 (by decide))] = .ok s' ∧
      a ∈ s'.live ∧ 32 ≤ a.ptr ∧
      Chain s'.heap.memory s'.heap.firstHeader (pre++⟨a.ptr-32,max 128 32+32,true⟩::post) ∧
      load 32 s'.heap.memory (a.ptr-32) = some h ∧
      h.size = max 128 32+32 ∧ h.isAllocated = true ∧
      dealloc s'.heap a.ptr = .ok heap' ∧
      Chain heap'.memory heap'.firstHeader (pre++⟨a.ptr-32,max 128 32+32,false⟩::post) ∧
      load 32 heap'.memory (a.ptr-32) = some {h with isAllocated := false} ∧
      (∀ b ∈ pre++post, load 32 heap'.memory b.addr = load 32 s'.heap.memory b.addr) ∧
      heap'.firstHeader = s'.heap.firstHeader ∧
      (∀ x, x < a.ptr-32 ∨ a.ptr ≤ x → heap'.memory x = s'.heap.memory x) ∧
      ∀ layout rl, IsLeast (powersFrom layout.size) rl → 0 < layout.size →
        (∀ c ∈ pre, ¬ Fits c (max rl 32) (max layout.align 32)) →
        max rl 32+64+max layout.align 32 ≤ max 128 32+32 →
        ∃ heap'', allocWithOptions 20 heap' layout =
          .ok (heap'',alignDown (max layout.align 32) (a.ptr+max 128 32-max rl 32)) := by
  obtain ⟨s,a,hs,hlive,hsize⟩ := smallMap_grants
  have ha : a ∈ s.live := by
    rw [hlive]
    exact List.mem_cons_self
  refine ⟨s,a,hs,ha,?_⟩
  exact hidden_header smallMap smallMap_contract smallMap_conventional _ _
    [.alloc (layout 8 12 (by decide))] 20 (by rw [smallMap_descriptors]; decide) s hs a ha
    ⟨not_false,fun _ _ => trivial⟩ 128
    (hsize ▸ least_small)

end Wasabi.Allocator.HiddenHeader
