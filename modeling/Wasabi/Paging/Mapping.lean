import Wasabi.Paging.PageTable
import Wasabi.Support.TableGrowth

/-!
# What a mapping call does to the walk

One turn of the loop writes one entry of the last level. The tables stay a
tree throughout, so intermediate tables that are missing can be linked in
without changing any translation.
-/

set_option autoImplicit false

namespace Wasabi.Paging.Mapping
open Wasabi.Rust Wasabi.WordBits Wasabi.Outcome Wasabi.Paging.PageTable
open Wasabi.TableTree (Tree Inner Reached descend grow write)
open Wasabi.TableGrowth (Linked Grown entry)

/-- Every table of `m'` was in `m` or came from `Box::new`. -/
def Boxed (boxNew : TableMemory → Option ℕ) (m m' : TableMemory) : Prop :=
  ∀ a, m' a ≠ none → m a ≠ none ∨ ∃ n, boxNew n = some a

theorem boxed_refl (boxNew : TableMemory → Option ℕ) (m : TableMemory) : Boxed boxNew m m :=
  fun _ ha => Or.inl ha

theorem boxed_trans (boxNew : TableMemory → Option ℕ) (m m' m'' : TableMemory)
    (h : Boxed boxNew m m') (h' : Boxed boxNew m' m'') : Boxed boxNew m m'' := by
  intro a ha
  rcases h' a ha with h' | h'
  · exact h a h'
  · exact Or.inr h'

theorem boxed_write (boxNew : TableMemory → Option ℕ) (m : TableMemory) (table : ℕ)
    (index : Fin 512) (value : ℕ) : Boxed boxNew m (write m table index value) := by
  intro a ha
  by_cases he : a = table
  · subst he
    left
    intro hn
    rw [write, Function.update_self, hn] at ha
    exact ha rfl
  · rw [write, Function.update_of_ne he] at ha
    exact Or.inl ha

theorem boxed_grow (boxNew : TableMemory → Option ℕ) (m n : TableMemory) (b : ℕ)
    (hb : boxNew n = some b) : Boxed boxNew m (grow m b 0) := by
  intro a ha
  by_cases he : a = b
  · exact Or.inr ⟨n,he ▸ hb⟩
  · rw [grow, Function.update_of_ne he] at ha
    exact Or.inl ha

theorem attr_lt (attr : PageAttr) : attr.value < 4096 := by
  cases attr <;> decide

theorem entry_flag (a : ℕ) (attr : PageAttr) (ha : 4096 ∣ a) (f : ℕ) (hf : f < 4096) :
    (a ||| attr.value) &&& f = attr.value &&& f :=
  or_and_low 12 a attr.value f (by omega) hf

/-- An aligned frame is recovered from an entry. -/
theorem entry_frame (a : ℕ) (attr : PageAttr) (ha : 4096 ∣ a) (hb : a < 2^52) :
    (a ||| attr.value) &&& complement 64 attrMask = a := by
  have hattr := attr_lt attr
  have hor : a ||| attr.value = a+attr.value := or_low 12 a attr.value (by omega) (by omega)
  rw [hor, show attrMask = 2^12-1 from rfl, and_complement_mask 64 12 _ (by decide) (by omega)]
  omega

theorem entry_present (a : ℕ) (attr : PageAttr) (ha : 4096 ∣ a) :
    isPresent (a ||| attr.value) = isPresent attr.value := by
  rw [isPresent, isPresent, entry_flag a attr ha _ (by decide)]

theorem entry_writable (a : ℕ) (attr : PageAttr) (ha : 4096 ∣ a) :
    isWritable (a ||| attr.value) = isWritable attr.value := by
  rw [isWritable, isWritable, entry_flag a attr ha _ (by decide)]

theorem link_new (a : ℕ) (ha : 4096 ∣ a) (hb : a < 2^52) :
    link (a ||| PageAttr.readWriteKernel.value) = some a := by
  rw [link, entry_present a _ ha, entry_frame a _ ha hb]
  rfl

theorem writeLink_new (a : ℕ) (ha : 4096 ∣ a) (hb : a < 2^52) :
    writeLink (a ||| PageAttr.readWriteKernel.value) = some a := by
  rw [writeLink, entry_present a _ ha, entry_writable a _ ha, entry_frame a _ ha hb]
  rfl

theorem leaf_page (a : ℕ) (attr : PageAttr) (ha : 4096 ∣ a) (hb : a < 2^52) :
    leaf (a ||| attr.value) = if attr = .notPresent then none else some (a,attr.value) := by
  rw [leaf, entry_present a _ ha, entry_frame a _ ha hb, entry_flag a attr ha _ (by decide)]
  cases attr <;> rfl

/-- The tables form a tree, what is present above the last level is writable,
and the tables that are not in `base` are in the tree. -/
structure PageTree (base m : TableMemory) (root : ℕ) : Prop where
  tree : Tree link 3 m root
  writable : Inner link (fun value => writeLink value = link value) 3 m root
  reached : Reached link 3 base m root

/-- The number of paths of at most three indices. -/
def tableBound : ℕ := 1+512+512^2+512^3

/-- `Box::new` gave up although few tables had been added to `base`. -/
def Exhausted (boxNew : TableMemory → Option ℕ) (base : TableMemory) (e : Fault) : Prop :=
  e = .outOfMemory ∧ ∃ (m : TableMemory) (new : Finset ℕ), boxNew m = none ∧
    new.card ≤ tableBound ∧ ∀ a t, m a = some t → (∃ t', base a = some t') ∨ a ∈ new

/-- `Box::new` succeeds as long as few tables have been added to `base`. -/
def Roomy (boxNew : TableMemory → Option ℕ) (base : TableMemory) : Prop :=
  ∀ (m : TableMemory) (new : Finset ℕ), new.card ≤ tableBound →
    (∀ a t, m a = some t → (∃ t', base a = some t') ∨ a ∈ new) → boxNew m ≠ none

theorem roomy_yields {α : Type} (boxNew : TableMemory → Option ℕ) (base m : TableMemory)
    (h : Roomy boxNew base) (x : Build α) (post : α → TableMemory → Prop)
    (hx : Yields (Exhausted boxNew base) x m post) : x m ≠ .error .outOfMemory := by
  rcases hx with ⟨e,⟨-,m1,new,hnone,hcard,hnew⟩,-⟩ | ⟨a,m',hx,-⟩
  · exact absurd hnone (h m1 new hcard hnew)
  · rw [hx]
    exact fun hc => by cases hc

theorem exhausted_tree (boxNew : TableMemory → Option ℕ) (base m : TableMemory) (root : ℕ)
    (ht : PageTree base m root) (hb : boxNew m = none) : Exhausted boxNew base .outOfMemory := by
  obtain ⟨new,hcard,hnew⟩ := TableTree.reached_card link 3 base m root ht.reached
  refine ⟨rfl,m,new,hb,hcard.trans ?_,hnew⟩
  rw [Fintype.card_fin]
  decide

/-- A page that the walk finds writable is found by the walk for a write. -/
theorem write_walk (base m : TableMemory) (root : ℕ) (ht : PageTree base m root) (v frame : ℕ)
    (hw : walk m root v = some (frame,PageAttr.readWriteKernel.value)) :
    writeWalk m root v = some frame := by
  have hd := TableTree.descend_congr link writeLink 3 m root ht.writable (path v) le_rfl
  rw [walk, TableTree.read, Option.bind_eq_some_iff] at hw
  obtain ⟨t,hpath,hleaf⟩ := hw
  rw [leaf] at hleaf
  split_ifs at hleaf with hp
  obtain ⟨hf,hattr⟩ := Prod.mk.inj (Option.some.inj hleaf)
  rw [writeWalk, TableTree.read, hd, hpath, Option.bind_some, writeLink, hp, hf]
  have hbit : isWritable (t (calcIndex 12 v)) = true := by
    have h := congrArg isWritable hattr
    rw [isWritable, Nat.and_assoc] at h
    exact h
  rw [hbit]
  rfl

theorem index_eq (shift v : ℕ) : (calcIndex shift v).val = v/2^shift%512 := by
  change (v >>> shift) &&& (2^9-1) = _
  rw [Nat.and_two_pow_sub_one_eq_mod, Nat.shiftRight_eq_div_pow]

/-- The four indices of a page determine the low 48 bits of its address. -/
theorem indices_low (v w : ℕ) (hv : 4096 ∣ v) (hw : 4096 ∣ w) (hp : path v = path w)
    (hi : calcIndex 12 v = calcIndex 12 w) : v%2^48 = w%2^48 := by
  simp only [path, List.cons.injEq, and_true] at hp
  obtain ⟨h39,h30,h21⟩ := hp
  have e39 := congrArg Fin.val h39
  have e30 := congrArg Fin.val h30
  have e21 := congrArg Fin.val h21
  have e12 := congrArg Fin.val hi
  simp only [index_eq] at e39 e30 e21 e12
  omega

theorem indices_injective (v w : ℕ) (hv : 4096 ∣ v) (hw : 4096 ∣ w) (hv' : v < 2^48)
    (hw' : w < 2^48) (hp : path v = path w) (hi : calcIndex 12 v = calcIndex 12 w) : v = w := by
  have hlow := indices_low v w hv hw hp hi
  rwa [Nat.mod_eq_of_lt hv', Nat.mod_eq_of_lt hw'] at hlow

section Run
variable (boxNew : TableMemory → Option ℕ) (m : TableMemory) (a : ℕ) (i : Fin 512)
  (t : Fin 512 → ℕ) (hat : m a = some t)
include hat

theorem readValue_ok : readValue a i m = .ok (.ok (t i),m) := by
  rw [readValue, hat]
  rfl

theorem tableMut_ok (hp : isPresent (t i) = true) :
    tableMut a i m = .ok (.ok (t i &&& complement 64 attrMask),m) := by
  rw [tableMut, run_bind _ _ _ _ _ (readValue_ok m a i t hat), if_pos hp]
  rfl

theorem writeValue_ok (value : ℕ) : writeValue a i value m = .ok (.ok (),write m a i value) := by
  rw [writeValue, hat]
  rfl

theorem ensure_present (hp : isPresent (t i) = true) :
    ensurePopulated boxNew a i m = .ok (.ok (),m) := by
  rw [ensurePopulated, run_bind _ _ _ _ _ (readValue_ok m a i t hat), if_pos hp]
  rfl

theorem ensure_absent (hp : isPresent (t i) = false) (b : ℕ) (hb : boxNew m = some b)
    (hfree : m b = none) : ensurePopulated boxNew a i m =
      .ok (.ok (),write (grow m b 0) a i (b ||| PageAttr.readWriteKernel.value)) := by
  have hne : a ≠ b := by
    rintro rfl
    rw [hat] at hfree
    cases hfree
  have hgrown : grow m b 0 a = some t := by rw [grow, Function.update_of_ne hne, hat]
  have hbox : newTable boxNew m = .ok (.ok b,grow m b 0) := by rw [newTable, hb]
  have hn : ¬ isPresent (t i) = true := by rw [hp]; exact Bool.false_ne_true
  rw [ensurePopulated, run_bind _ _ _ _ _ (readValue_ok m a i t hat), if_neg hn, populate,
    run_bind _ _ _ _ _ (readValue_ok m a i t hat), if_neg hn, run_bind _ _ _ _ _ hbox,
    writeValue_ok _ a i t hgrown]

theorem ensure_exhausted (hp : isPresent (t i) = false) (hb : boxNew m = none) :
    ensurePopulated boxNew a i m = .error .outOfMemory := by
  have hbox : newTable boxNew m = .error .outOfMemory := by rw [newTable, hb]
  have hn : ¬ isPresent (t i) = true := by rw [hp]; exact Bool.false_ne_true
  rw [ensurePopulated, run_bind _ _ _ _ _ (readValue_ok m a i t hat), if_neg hn, populate,
    run_bind _ _ _ _ _ (readValue_ok m a i t hat), if_neg hn, run_bind_fault _ _ _ _ hbox]

end Run

section Level
variable (boxNew : TableMemory → Option ℕ) (hbox : FreshBoxes boxNew) (base : TableMemory)
  (root : ℕ)
include hbox

/-- Above the last level an entry leads on to a table, new or not. -/
theorem next_table (m : TableMemory) (ht : PageTree base m root) (p : List (Fin 512)) (a : ℕ)
    (hp : descend link m root p = some a) (hd : p.length < 3) (i : Fin 512) :
    Yields (Exhausted boxNew base) (nextTable boxNew a i) m
      (fun b m' => PageTree base m' root ∧ Boxed boxNew m m' ∧
        Linked link 3 m m' root (p++[i]) b 0) := by
  obtain ⟨t,hat⟩ := ht.tree.live p a hd.le hp
  cases hpres : isPresent (t i) with
  | true =>
    right
    refine ⟨t i &&& complement 64 attrMask,m,?_,ht,boxed_refl boxNew m,?_⟩
    · rw [nextTable, run_bind _ _ _ _ _ (ensure_present boxNew m a i t hat hpres)]
      exact tableMut_ok m a i t hat hpres
    · apply TableGrowth.linked_refl
      rw [TableTree.descend_some link m root p i a t hp hat, link, hpres]
      rfl
  | false =>
    cases hnew : boxNew m with
    | none =>
      left
      refine ⟨.outOfMemory,exhausted_tree boxNew base m root ht hnew,?_⟩
      exact run_bind_fault _ _ _ _ (ensure_exhausted boxNew m a i t hat hpres hnew)
    | some b =>
      right
      obtain ⟨hal,hlt,hfree⟩ := hbox m b hnew
      have hold : link (t i) = none := by
        rw [link, hpres]
        rfl
      have he := link_new b hal hlt
      have hgrown := TableTree.grown_old m a b t i (b ||| PageAttr.readWriteKernel.value) 0 hat
        hfree
      have hw := (writeLink_new b hal hlt).trans he.symm
      have hread : (Function.update t i (b ||| PageAttr.readWriteKernel.value)) i =
          b ||| PageAttr.readWriteKernel.value := Function.update_self _ _ _
      refine ⟨b,write (grow m b 0) a i (b ||| PageAttr.readWriteKernel.value),?_,?_,?_,?_⟩
      · rw [nextTable, run_bind _ _ _ _ _ (ensure_absent boxNew m a i t hat hpres b hnew hfree),
          tableMut_ok _ a i _ hgrown (by rw [hread, entry_present b _ hal]; rfl), hread,
          entry_frame b _ hal hlt]
      · exact ⟨TableTree.tree_link link 3 m root ht.tree p a b t hp hd hat i _ 0 hold hfree he rfl,
          TableTree.inner_link link 3 m root ht.tree p a b t hp hd hat i _ 0 hold hfree he rfl _
            ht.writable hw rfl,
          TableTree.reached_link link 3 m root ht.tree p a b t hp hd hat i _ 0 hold hfree he rfl
            base ht.reached⟩
      · exact boxed_trans boxNew _ _ _ (boxed_grow boxNew m m b hnew) (boxed_write boxNew _ a i _)
      · exact TableGrowth.linked_new link 3 m root ht.tree p a b t hp hd hat i _ 0 hold hfree he rfl

end Level

theorem linked_path (m m' : TableMemory) (root : ℕ) (p : List (Fin 512)) (b : ℕ)
    (h : Linked link 3 m m' root p b 0) (hp : p.length ≤ 3) : descend link m' root p = some b := by
  rw [h.paths p hp, if_pos rfl]

/-- One last-level entry was written, in a table that may be new. -/
structure Paged (m m' : TableMemory) (root addr value : ℕ) : Prop where
  grown : Grown link 3 m m' root (path addr)
  entries : ∀ q j, q.length = 3 → entry link m' root q j =
    if q = path addr ∧ j = calcIndex 12 addr then some value
    else if q = path addr ∧ descend link m root q = none then some 0 else entry link m root q j

/-- The sum that `create_mapping` takes first does not fit. -/
def Overflows (phys addr : ℕ) (e : Fault) : Prop :=
  e = .panic "attempt to add with overflow" ∧ 2^64 ≤ phys+addr

/-- `phys + addr - virt_start`. -/
def frameOf (phys addr virtStart : ℕ) : Build ℕ := do
  let sum ← lift (checkedAdd phys addr)
  lift (checkedSub sum virtStart)

theorem frameOf_cases (m : TableMemory) (phys addr virtStart : ℕ) (hstart : virtStart ≤ addr) :
    Yields (Overflows phys addr) (frameOf phys addr virtStart) m
      (fun x m' => x = phys+addr-virtStart ∧ m' = m) := by
  rcases Nat.lt_or_ge (phys+addr) (2^64) with hlt | hge
  · right
    refine ⟨phys+addr-virtStart,m,?_,rfl,rfl⟩
    have hsum : lift (checkedAdd phys addr) m = .ok (.ok (phys+addr),m) := by
      rw [lift, checkedAdd_ok _ _ hlt]
      rfl
    rw [frameOf, run_bind _ _ _ _ _ hsum, lift, checkedSub_ok _ _ (by omega)]
    rfl
  · left
    refine ⟨_,⟨rfl,hge⟩,?_⟩
    apply run_bind_fault
    rw [lift, checkedAdd, if_neg (by unfold usizeMax; omega)]
    rfl

theorem mask_zero (a : ℕ) (h : 4096 ∣ a) : ¬ a &&& attrMask ≠ 0 := by
  change ¬ a &&& (2^12-1) ≠ 0
  rw [Nat.and_two_pow_sub_one_eq_mod]
  omega

section Page
variable (boxNew : TableMemory → Option ℕ) (hbox : FreshBoxes boxNew) (base : TableMemory)
  (root : ℕ)

/-- The tables above the last level that one turn of the loop goes through. -/
def upperLevels (addr : ℕ) : Build ℕ := do
  let table ← nextTable boxNew root (calcIndex 39 addr)
  let table ← nextTable boxNew table (calcIndex 30 addr)
  nextTable boxNew table (calcIndex 21 addr)

theorem mapPage_eq (virtStart phys : ℕ) (attr : PageAttr) (addr : ℕ) :
    mapPage boxNew root virtStart phys attr addr = (do
      let table ← upperLevels boxNew root addr
      let frame ← frameOf phys addr virtStart
      setPage table (calcIndex 12 addr) frame attr) := by
  simp only [mapPage, upperLevels, frameOf, bind_assoc]

include hbox

theorem upper_levels (m : TableMemory) (ht : PageTree base m root) (addr : ℕ) :
    Yields (Exhausted boxNew base) (upperLevels boxNew root addr) m
      (fun a m' => PageTree base m' root ∧ Boxed boxNew m m' ∧
        descend link m' root (path addr) = some a ∧ Grown link 3 m m' root (path addr) ∧
        ∀ q j, q.length = 3 → entry link m' root q j =
          if q = path addr ∧ descend link m root q = none then some 0
          else entry link m root q j) := by
  apply yields_bind _ _ _ _ _ _ (next_table boxNew hbox base root m ht [] root rfl (by decide) _)
  rintro a1 m1 ⟨ht1,hb1,hl1⟩
  have hp1 := linked_path _ _ _ _ _ hl1 (by decide : 1 ≤ 3)
  have hg1 := TableGrowth.grown_snoc link 3 m m m1 root [] _ a1 0
    (TableGrowth.grown_nil link 3 m root) hl1
  apply yields_bind _ _ _ _ _ _ (next_table boxNew hbox base root m1 ht1 _ a1 hp1 (by simp) _)
  rintro a2 m2 ⟨ht2,hb2,hl2⟩
  have hp2 := linked_path _ _ _ _ _ hl2 (by decide : 2 ≤ 3)
  have hg2 := TableGrowth.grown_snoc link 3 m m1 m2 root _ _ a2 0 hg1 hl2
  apply yields_mono _ _ _ _ _ (next_table boxNew hbox base root m2 ht2 _ a2 hp2 (by simp) _)
  rintro a3 m3 ⟨ht3,hb3,hl3⟩
  have hupper : ∀ q j, q.length = 3 → entry link m2 root q j = entry link m root q j := by
    intro q j hq
    rw [hl2.entries q j hq, if_neg, hl1.entries q j hq, if_neg]
    · rintro ⟨rfl,-⟩
      simp at hq
    · rintro ⟨rfl,-⟩
      simp at hq
  exact ⟨ht3,boxed_trans boxNew _ _ _ (boxed_trans boxNew _ _ _ hb1 hb2) hb3,
    linked_path _ _ _ _ _ hl3 (by decide : 3 ≤ 3),
    TableGrowth.grown_snoc link 3 m m2 m3 root _ _ a3 0 hg2 hl3,
    fun q j hq => TableGrowth.entries_snoc link 3 m m2 m3 root _ _ a3 0 hg2 (by decide : 2 < 3) hl3
      hupper q hq j⟩

/-- One turn of the loop writes the entry of its page, whatever the address,
unless the tables or the sum do not fit. -/
theorem page_effect (m : TableMemory) (ht : PageTree base m root) (virtStart phys addr : ℕ)
    (attr : PageAttr) (hstart : virtStart ≤ addr) (hphys : 4096 ∣ phys+addr-virtStart) :
    Yields (fun e => Exhausted boxNew base e ∨ Overflows phys addr e)
      (mapPage boxNew root virtStart phys attr addr) m
      (fun _ m' => PageTree base m' root ∧ Boxed boxNew m m' ∧
        Paged m m' root addr ((phys+addr-virtStart) ||| attr.value)) := by
  rw [mapPage_eq]
  apply yields_bind _ _ _ _ _ _ (yields_weaken _ _ _ _ _ (fun _ => Or.inl)
    (upper_levels boxNew hbox base root m ht addr))
  rintro a m1 ⟨ht1,hb1,hp1,hg1,he1⟩
  apply yields_bind _ _ _ _ _ _ (yields_weaken _ _ _ _ _ (fun _ => Or.inr)
    (frameOf_cases m1 phys addr virtStart hstart))
  rintro _ _ ⟨rfl,hm⟩
  rw [hm]
  obtain ⟨t,hat⟩ := ht1.tree.live (path addr) a le_rfl hp1
  have hmask : ¬ (phys+addr-virtStart) &&& attrMask ≠ 0 := mask_zero _ hphys
  right
  refine ⟨(),write m1 a (calcIndex 12 addr) ((phys+addr-virtStart) ||| attr.value),?_,?_,?_,?_,?_⟩
  · rw [setPage, if_neg hmask]
    exact writeValue_ok m1 a _ t hat _
  · exact ⟨TableTree.tree_write link 3 m1 root ht1.tree (path addr) a hp1 rfl _ _,
      TableTree.inner_write link 3 m1 root ht1.tree (path addr) a hp1 rfl _ _ _ ht1.writable,
      TableTree.reached_write link 3 m1 root ht1.tree (path addr) a hp1 rfl _ _ base ht1.reached⟩
  · exact boxed_trans boxNew _ _ _ hb1 (boxed_write boxNew m1 a _ _)
  · exact TableGrowth.grown_write link 3 m1 root ht1.tree (path addr) a hp1 rfl _ _ m _ hg1
  · intro q j hq
    rw [TableGrowth.entry_write link 3 m1 root ht1.tree (path addr) a hp1 rfl _ _ q hq j,
      he1 q j hq]

/-- One turn of the loop translates its own page and leaves all others. -/
theorem map_page (m : TableMemory) (ht : PageTree base m root) (virtStart phys addr : ℕ)
    (attr : PageAttr) (hstart : virtStart ≤ addr) (haddr : addr < 2^48) (hal : 4096 ∣ addr)
    (hphys : 4096 ∣ phys+addr-virtStart) (hend : phys+addr < 2^52+virtStart) :
    Yields (Exhausted boxNew base) (mapPage boxNew root virtStart phys attr addr) m
      (fun _ m' => PageTree base m' root ∧ Boxed boxNew m m' ∧
        ∀ v, 4096 ∣ v → v < 2^48 → walk m' root v =
          if v = addr then
            if attr = .notPresent then none else some (phys+addr-virtStart,attr.value)
          else walk m root v) := by
  apply yields_mono _ _ _ _ _ (yields_weaken _ _ _ _ _ ?_
    (page_effect boxNew hbox base root m ht virtStart phys addr attr hstart hphys))
  · rintro _ m' ⟨ht',hb',-,hentries⟩
    refine ⟨ht',hb',?_⟩
    intro v hv hv'
    rw [walk, walk, TableGrowth.read_entry, TableGrowth.read_entry, hentries (path v) _ rfl]
    by_cases he : v = addr
    · rw [if_pos he, he, if_pos ⟨rfl,rfl⟩]
      exact leaf_page _ attr hphys (by omega)
    · rw [if_neg he, if_neg (fun h => he (indices_injective v addr hv hal hv' haddr h.1 h.2))]
      split_ifs with hnew
      · rw [TableGrowth.entry_none link m root (path v) _ hnew.2]
        rfl
      · rfl
  · rintro e (he | ⟨-,he⟩)
    · exact he
    · omega

end Page

/-- For aligned ends the loop visits exactly the pages of the range. -/
theorem mem_stepBy (start stop v : ℕ) (h1 : 4096 ∣ start) (h2 : 4096 ∣ stop) (hv : 4096 ∣ v) :
    v ∈ stepBy start stop pageSize ↔ start ≤ v ∧ v < stop := by
  rw [stepBy, List.mem_range', pageSize]
  constructor
  · rintro ⟨k,hk,rfl⟩
    omega
  · rintro ⟨hl,hr⟩
    exact ⟨(v-start)/4096,by omega,by omega⟩

theorem stepBy_aligned (start stop v : ℕ) (h1 : 4096 ∣ start)
    (hv : v ∈ stepBy start stop pageSize) : 4096 ∣ v := by
  rw [stepBy, List.mem_range', pageSize] at hv
  obtain ⟨k,-,rfl⟩ := hv
  omega

/-- The arguments of one call of `create_mapping`. -/
structure Call where
  virtStart : ℕ
  virtEnd : ℕ
  phys : ℕ
  attr : PageAttr
  deriving DecidableEq, Repr

def Call.covers (c : Call) (v : ℕ) : Bool := c.virtStart ≤ v && v < c.virtEnd

/-- The translation that a call asks for at a page it covers. -/
def Call.target (c : Call) (v : ℕ) : Option (ℕ × ℕ) :=
  if c.attr = .notPresent then none else some (c.phys+(v-c.virtStart),c.attr.value)

/-- Aligned arguments within the canonical lower half and physical memory. -/
structure CallOk (c : Call) : Prop where
  virtStart : 4096 ∣ c.virtStart
  virtEnd : 4096 ∣ c.virtEnd
  phys : 4096 ∣ c.phys
  lowerHalf : c.virtEnd ≤ 2^48
  frames : c.phys+c.virtEnd ≤ 2^52+c.virtStart

instance (c : Call) : Decidable (CallOk c) :=
  decidable_of_iff (4096 ∣ c.virtStart ∧ 4096 ∣ c.virtEnd ∧ 4096 ∣ c.phys ∧ c.virtEnd ≤ 2^48 ∧
    c.phys+c.virtEnd ≤ 2^52+c.virtStart)
    ⟨fun ⟨h1,h2,h3,h4,h5⟩ => ⟨h1,h2,h3,h4,h5⟩,fun ⟨h1,h2,h3,h4,h5⟩ => ⟨h1,h2,h3,h4,h5⟩⟩

section Calls
variable (boxNew : TableMemory → Option ℕ) (hbox : FreshBoxes boxNew) (base : TableMemory)
  (root : ℕ)

def callMapping (c : Call) : Build Unit :=
  createMapping boxNew root c.virtStart c.virtEnd c.phys c.attr

include hbox

/-- A call succeeds and remaps the pages it covers, no others. -/
theorem call_mapping (m : TableMemory) (ht : PageTree base m root) (c : Call) (hc : CallOk c) :
    Yields (Exhausted boxNew base) (callMapping boxNew root c) m
      (fun _ m' => PageTree base m' root ∧ Boxed boxNew m m' ∧
        ∀ v, 4096 ∣ v → v < 2^48 → walk m' root v =
          if c.covers v then c.target v else walk m root v) := by
  obtain ⟨hs,he,hp,hlow,hframes⟩ := hc
  rw [callMapping, createMapping, if_neg (mask_zero _ hs), if_neg (mask_zero _ he),
    if_neg (mask_zero _ hp)]
  have hloop := yields_forM (Exhausted boxNew base) (mapPage boxNew root c.virtStart c.phys c.attr)
    (fun done m' => PageTree base m' root ∧ Boxed boxNew m m' ∧
      ∀ v, 4096 ∣ v → v < 2^48 → walk m' root v =
        if v ∈ done then c.target v else walk m root v)
    (stepBy c.virtStart c.virtEnd pageSize) [] m ?_ ⟨ht,boxed_refl boxNew m,fun v _ _ => by simp⟩
  · apply yields_mono _ _ _ _ _ hloop
    rintro _ m' ⟨ht',hb',hw'⟩
    refine ⟨ht',hb',?_⟩
    intro v hv hv'
    rw [hw' v hv hv', List.nil_append]
    have hmem := mem_stepBy c.virtStart c.virtEnd v hs he hv
    by_cases hcov : c.virtStart ≤ v ∧ v < c.virtEnd
    · rw [if_pos (hmem.mpr hcov), if_pos (by simpa [Call.covers] using hcov)]
    · rw [if_neg (fun h => hcov (hmem.mp h)), if_neg (by simpa [Call.covers] using hcov)]
  · rintro done addr m1 haddr ⟨ht1,hb1,hw1⟩
    have hal := stepBy_aligned _ _ _ hs haddr
    obtain ⟨hl,hr⟩ := (mem_stepBy c.virtStart c.virtEnd addr hs he hal).mp haddr
    apply yields_mono _ _ _ _ _ (map_page boxNew hbox base root m1 ht1 c.virtStart c.phys addr
      c.attr hl (by omega) hal (by omega) (by omega))
    rintro _ m2 ⟨ht2,hb2,hw2⟩
    refine ⟨ht2,boxed_trans boxNew _ _ _ hb1 hb2,?_⟩
    intro v hv hv'
    rw [hw2 v hv hv', hw1 v hv hv']
    by_cases hva : v = addr
    · subst hva
      have hmem : v ∈ done++[v] := by simp
      rw [if_pos rfl, if_pos hmem, Call.target, Nat.add_sub_assoc hl]
    · rw [if_neg hva]
      simp [hva]

end Calls

end Wasabi.Paging.Mapping
