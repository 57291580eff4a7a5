import LuckOS.LinkedList
import LuckOS.Runs
import Mathlib.Data.List.Induction

/-!
# Linked lists against sequences of nodes

A family of lists is changed by the operations of `utils/linked_list.c`. In every state that legal
operations lead to, a list holds the sequence that the operations on sequences give: it is met from the
head in the direction of `next` and from the tail in the direction of `prev`. An operation is legal if a
node that is added is in no list, and a node that is named is in the list that is changed.
-/

namespace LuckOS

universe u v w

variable {κ : Type v} {ν : Type u} {τ : Type w}

namespace LinkedList

section

variable [DecidableEq τ]

/-- The search of `linked_list_remove_ele`; it is unfinished when it runs out of rounds. -/
def findEle (k : Links ν) (ptr : ν → τ) (ele : τ) : Nat → Option ν → Option (Option ν)
  | 0, _ => none
  | _ + 1, none => some none
  | rounds + 1, some node =>
    if ptr node = ele then some (some node) else findEle k ptr ele rounds (k.next node)

variable [DecidableEq ν]

/-- `linked_list_remove_ele`. -/
def removeEle (k : Links ν) (l : LinkedList ν) (ptr : ν → τ) (ele : τ) (rounds : Nat) :
    Option (Links ν × LinkedList ν) :=
  (findEle k ptr ele rounds l.head).map fun
    | none => (k, l)
    | some node => remove k l node

end

/-- `linked_list_concate`: the links, the destination and the source. -/
def concate [DecidableEq ν] (k : Links ν) (dst src : LinkedList ν) :
    Links ν × LinkedList ν × LinkedList ν :=
  if src.size = 0 then (k, dst, src)
  else if dst.size = 0 then (k, move src)
  else
    let k := k.setNext dst.tail src.head
    let k := k.setPrev src.head dst.tail
    (k, ⟨dst.head, src.tail, dst.size + src.size⟩, init)

end LinkedList

namespace Queues

open Function

variable [DecidableEq κ] [DecidableEq ν]

def removeEle [DecidableEq τ] (s : Queues κ ν) (i : κ) (ptr : ν → τ) (ele : τ) (rounds : Nat) :
    Option (Queues κ ν) :=
  (LinkedList.removeEle s.links (s.list i) ptr ele rounds).map (s.set i)

/-- The source is stored behind the destination, also if they are the same list. -/
def concate (s : Queues κ ν) (dst src : κ) : Queues κ ν :=
  let r := LinkedList.concate s.links (s.list dst) (s.list src)
  ⟨r.1, update (update s.list dst r.2.1) src r.2.2⟩

end Queues

/-- The lists with their nodes, which have a pointer that is stored by the callers. -/
structure Lists (κ : Type v) (ν : Type u) (τ : Type w) where
  queues : Queues κ ν
  ptr : ν → τ

namespace Lists

inductive Action (κ : Type v) (ν : Type u) (τ : Type w) where
  | append (i : κ) (newNode : ν)
  | insert (i : κ) (node : Option ν) (newNode : ν)
  | remove (i : κ) (node : ν)
  | removeEle (i : κ) (ptr : τ)
  | move (dst src : κ)
  | concate (dst src : κ)
  | setPtr (node : ν) (ptr : τ)

variable [DecidableEq κ] [DecidableEq ν] [DecidableEq τ]

/-- An operation that returns. -/
def Step (s : Lists κ ν τ) : Action κ ν τ → Lists κ ν τ → Prop
  | .append i newNode, t => t = { s with queues := s.queues.append i newNode }
  | .insert i node newNode, t => t = { s with queues := s.queues.insert i node newNode }
  | .remove i node, t => t = { s with queues := s.queues.remove i node }
  | .removeEle i ptr, t => ∃ rounds q, s.queues.removeEle i s.ptr ptr rounds = some q ∧
      t = { s with queues := q }
  | .move dst src, t => t = { s with queues := s.queues.move dst src }
  | .concate dst src, t => t = { s with queues := s.queues.concate dst src }
  | .setPtr node ptr, t => t = { s with ptr := Function.update s.ptr node ptr }

/-- All lists are initialised; the links and the pointers of the nodes are arbitrary. -/
def start (links : Links ν) (ptr : ν → τ) : Lists κ ν τ := ⟨⟨links, fun _ => LinkedList.init⟩, ptr⟩

end Lists

/-- The sequences of nodes that the lists stand for. -/
structure Sequences (κ : Type v) (ν : Type u) (τ : Type w) where
  seq : κ → List ν
  ptr : ν → τ

namespace Sequences

open Function

variable [DecidableEq κ] [DecidableEq ν] [DecidableEq τ]

/-- A node is put behind another one, or to the head. -/
def insertBehind (newNode : ν) : Option ν → List ν → List ν
  | none, xs => newNode :: xs
  | some _, [] => []
  | some node, x :: xs =>
    if x = node then x :: newNode :: xs else x :: insertBehind newNode (some node) xs

/-- A node that is added is in no list, a node that is named is in the list. -/
def Legal (q : Sequences κ ν τ) : Lists.Action κ ν τ → Prop
  | .append _ newNode => ∀ j, newNode ∉ q.seq j
  | .insert i node newNode => (∀ n, node = some n → n ∈ q.seq i) ∧ ∀ j, newNode ∉ q.seq j
  | .remove i node => node ∈ q.seq i
  | _ => True

/-- The operations on sequences. -/
def apply (q : Sequences κ ν τ) : Lists.Action κ ν τ → Sequences κ ν τ
  | .append i newNode => { q with seq := update q.seq i (q.seq i ++ [newNode]) }
  | .insert i node newNode => { q with seq := update q.seq i (insertBehind newNode node (q.seq i)) }
  | .remove i node => { q with seq := update q.seq i ((q.seq i).erase node) }
  | .removeEle i ptr => { q with seq := update q.seq i ((q.seq i).eraseP (q.ptr · = ptr)) }
  | .move dst src => { q with seq := update (update q.seq dst (q.seq src)) src [] }
  | .concate dst src => { q with seq := update (update q.seq dst (q.seq dst ++ q.seq src)) src [] }
  | .setPtr node ptr => { q with ptr := update q.ptr node ptr }

def start (ptr : ν → τ) : Sequences κ ν τ := ⟨fun _ => [], ptr⟩

end Sequences

/-! ## One list -/

namespace LinkedList

variable {k : Links ν} {l l' : LinkedList ν} {xs ys : List ν} {p : Option ν}

/-- The nodes that are met from a node on in the direction of a link, up to the null pointer. -/
def Follows (link : ν → Option ν) : Option ν → List ν → Prop
  | p, [] => p = none
  | p, x :: xs => p = some x ∧ Follows link (link x) xs

theorem Linked.follows_next (h : Linked k p xs none) : Follows k.next xs.head? xs := by
  induction xs generalizing p with
  | nil => rfl
  | cons x xs ih =>
    obtain ⟨-, hnext, hrest⟩ := h
    refine ⟨rfl, ?_⟩
    rw [hnext, Option.or_none]
    exact ih hrest

theorem Linked.follows_prev (h : Linked k none xs p) : Follows k.prev xs.getLast? xs.reverse := by
  induction xs using List.reverseRecOn generalizing p with
  | nil => rfl
  | append_singleton xs x ih =>
    obtain ⟨hxs, hprev, -, -⟩ := linked_append.mp h
    rw [List.getLast?_append, List.reverse_append]
    refine ⟨rfl, ?_⟩
    rw [hprev, Option.or_none]
    exact ih hxs

section

variable [DecidableEq τ] {ptr : ν → τ} {ele : τ} {rounds : Nat}

/-- The search finds the first node with the pointer, as soon as there are rounds for all nodes. -/
theorem findEle_eq (h : Linked k p xs none) (hrounds : xs.length < rounds) :
    findEle k ptr ele rounds xs.head? = some (xs.find? (ptr · = ele)) := by
  induction xs generalizing p rounds with
  | nil =>
    obtain ⟨rounds, rfl⟩ := Nat.exists_eq_add_one.mpr hrounds
    rfl
  | cons x xs ih =>
    obtain ⟨-, hnext, hrest⟩ := h
    obtain ⟨rounds, rfl⟩ := Nat.exists_eq_add_one.mpr (Nat.zero_lt_of_lt hrounds)
    rw [List.head?_cons, findEle, List.find?_cons]
    by_cases hx : ptr x = ele
    · simp only [hx, if_true, decide_true]
    · rw [if_neg hx, hnext, Option.or_none, ih hrest (Nat.lt_of_succ_lt_succ hrounds)]
      simp only [hx, decide_false]

/-- More rounds do not change what is found. -/
theorem findEle_mono {r : Option ν} (h : findEle k ptr ele rounds p = some r) (more : Nat) :
    findEle k ptr ele (rounds + more) p = some r := by
  induction rounds generalizing p with
  | zero => cases h
  | succ rounds ih =>
    rw [Nat.succ_add]
    cases p with
    | none => exact h
    | some node =>
      rw [findEle] at h ⊢
      split_ifs at h ⊢ with hnode
      · exact h
      · exact ih h

theorem findEle_eq_some {r : Option ν} (h : Linked k p xs none)
    (hfind : findEle k ptr ele rounds xs.head? = some r) : r = xs.find? (ptr · = ele) := by
  have hmore := findEle_mono hfind (xs.length + 1)
  rw [findEle_eq h (by omega)] at hmore
  exact (Option.some.inj hmore).symm

end

variable [DecidableEq ν]

/-- The first list is linked to the second one. -/
theorem concate_holds (h : Holds k l xs) (h' : Holds k l' ys) (hxs : xs ≠ []) (hys : ys ≠ [])
    (hdisj : List.Disjoint xs ys) :
    Holds ((k.setNext l.tail l'.head).setPrev l'.head l.tail)
      ⟨l.head, l'.tail, l.size + l'.size⟩ (xs ++ ys) where
  head := by rw [h.head, List.head?_append_of_ne_nil _ hxs]
  tail := by rw [h'.tail, List.getLast?_append_of_ne_nil _ hys]
  size := by rw [h.size, h'.size, List.length_append]
  linked := by
    rw [h.tail, h'.head]
    refine linked_append.mpr ⟨?_, ?_⟩
    · rw [Option.or_none]
      refine (h.linked.setNext_getLast h.nodup).congr fun m hm => Links.sameAt_setPrev fun heq => ?_
      exact hdisj hm (List.mem_of_mem_head? heq)
    · rw [Option.or_none]
      refine Linked.setPrev_head (h'.linked.congr fun m hm =>
        Links.sameAt_setNext fun heq => ?_) h'.nodup
      exact hdisj (List.mem_of_getLast? heq) hm
  nodup := List.nodup_append'.mpr ⟨h.nodup, h'.nodup, hdisj⟩

theorem concate_sameAt (h : Holds k l xs) (h' : Holds k l' ys) {m : ν} (hm : m ∉ xs) (hm' : m ∉ ys) :
    Links.SameAt k ((k.setNext l.tail l'.head).setPrev l'.head l.tail) m := by
  rw [h.tail, h'.head]
  refine (Links.sameAt_setNext fun heq => hm ?_).trans (Links.sameAt_setPrev fun heq => hm' ?_)
  · exact List.mem_of_getLast? heq
  · exact List.mem_of_mem_head? heq

end LinkedList

/-! ## Operations on a family of lists -/

namespace Sequences

open Function

variable [DecidableEq ν] {n : ν} {node : Option ν} {xs : List ν}

/-- The node that is inserted stands between the nodes up to the named one and the others. -/
theorem insertBehind_eq (hnode : ∀ m, node = some m → m ∈ xs) :
    ∃ ys zs, xs = ys ++ zs ∧ ys.getLast? = node ∧ insertBehind n node xs = ys ++ n :: zs := by
  cases node with
  | none => exact ⟨[], xs, rfl, rfl, by rw [insertBehind]; rfl⟩
  | some m =>
    induction xs with
    | nil => cases hnode m rfl
    | cons x xs ih =>
      rw [insertBehind]
      by_cases hx : x = m
      · subst hx
        exact ⟨[x], xs, rfl, rfl, if_pos rfl⟩
      · have hmem : m ∈ xs := (List.mem_cons.mp (hnode m rfl)).resolve_left (Ne.symm hx)
        obtain ⟨ys, zs, hxs, hlast, hinsert⟩ := ih fun m' heq => Option.some.inj heq ▸ hmem
        refine ⟨x :: ys, zs, by rw [hxs]; rfl, ?_, by rw [if_neg hx, hinsert]; rfl⟩
        rw [List.getLast?_cons, hlast]
        rfl

end Sequences

namespace Queues.Represents

open LinkedList Function

variable [DecidableEq κ] [DecidableEq ν] {s t : Queues κ ν} {q : κ → List ν} {i j : κ} {n : ν}
  {node : Option ν} {xs ys : List ν}

theorem removeEle [DecidableEq τ] {ptr : ν → τ} {ele : τ} {rounds : Nat} (h : Represents s q)
    (hremove : s.removeEle i ptr ele rounds = some t) :
    Represents t (update q i ((q i).eraseP (ptr · = ele))) := by
  obtain ⟨r, hr, rfl⟩ := Option.map_eq_some_iff.mp hremove
  obtain ⟨found, hfind, rfl⟩ := Option.map_eq_some_iff.mp hr
  rw [(h.holds i).head] at hfind
  have hfound := findEle_eq_some (h.holds i).linked hfind
  cases found with
  | none =>
    have hsame : (q i).eraseP (ptr · = ele) = q i :=
      List.eraseP_of_forall_not fun m hm => List.find?_eq_none.mp hfound.symm m hm
    rw [hsame, update_eq_self]
    have hset : s.set i (s.links, s.list i) = s := by
      rw [Queues.set, update_eq_self]
    rw [hset]
    exact h
  | some m =>
    obtain ⟨hm, xs, ys, hq, hxs⟩ := List.find?_eq_some_iff_append.mp hfound.symm
    have herase : (q i).eraseP (ptr · = ele) = xs ++ ys := by
      rw [hq, List.eraseP_append_right _ fun x hx => by simpa using hxs x hx,
        List.eraseP_cons_of_pos (p := fun x => decide (ptr x = ele)) hm]
    rw [herase]
    exact h.remove hq

/-- There are rounds enough to find the node. -/
theorem exists_removeEle [DecidableEq τ] (h : Represents s q) (i : κ) (ptr : ν → τ) (ele : τ) :
    ∃ rounds t, s.removeEle i ptr ele rounds = some t := by
  refine ⟨(q i).length + 1, ?_⟩
  rw [Queues.removeEle, LinkedList.removeEle, (h.holds i).head,
    findEle_eq (h.holds i).linked (Nat.lt_succ_self _)]
  exact ⟨_, rfl⟩

/-- A list that is initialised is empty, whatever is stored in its nodes. -/
theorem reset {k : Links ν} (h : Represents s q) (hsame : ∀ m, m ∉ q i → Links.SameAt s.links k m) :
    Represents (s.set i (k, init)) (update q i []) :=
  h.update_list holds_init (fun m hm _ => hsame m hm) nofun

omit [DecidableEq ν] in
theorem move_any (h : Represents s q) (i j : κ) :
    Represents (s.move i j) (update (update q i (q j)) j []) := by
  classical
  by_cases hne : i = j
  · subst hne
    rw [Queues.move, update_idem, update_idem]
    exact h.reset fun m _ => .refl s.links m
  · exact h.move hne

theorem concate (h : Represents s q) (i j : κ) :
    Represents (s.concate i j) (update (update q i (q i ++ q j)) j []) := by
  rw [Queues.concate, LinkedList.concate]
  split_ifs with hsrc hdst
  · have hj : q j = [] := (h.holds j).size_eq_zero.mp hsrc
    rw [hj, List.append_nil, update_eq_self, ← hj, update_eq_self]
    simp only [update_eq_self]
    exact h
  · have hi : q i = [] := (h.holds i).size_eq_zero.mp hdst
    rw [hi, List.nil_append]
    exact h.move_any i j
  · have hi : q i ≠ [] := mt (h.holds i).size_eq_zero.mpr hdst
    have hj : q j ≠ [] := mt (h.holds j).size_eq_zero.mpr hsrc
    have hsame : ∀ m, m ∉ q i → m ∉ q j → _ := fun m => concate_sameAt (h.holds i) (h.holds j)
    by_cases hne : i = j
    · subst hne
      simp only [update_idem]
      exact h.reset fun m hm => hsame m hm hm
    · have hdisj : List.Disjoint (q i) (q j) := fun m hm hm' => hne (h.apart hm hm')
      exact h.transfer hne (concate_holds (h.holds i) (h.holds j) hi hj hdisj)
        (fun m => List.mem_append.mp) hsame

end Queues.Represents

/-! ## Runs -/

namespace Lists

open Runs LinkedList

variable {s t : Lists κ ν τ} {x : Sequences κ ν τ} {a : Action κ ν τ} {as : List (Action κ ν τ)}
  [DecidableEq κ] [DecidableEq ν] [DecidableEq τ]

/-- Legal operations on sequences. -/
def Applies : Sequences κ ν τ → Action κ ν τ → Sequences κ ν τ → Prop :=
  Guarded Sequences.Legal fun x a y => y = x.apply a

/-- The lists hold the sequences, and no node is in two of them. -/
structure Holding (s : Lists κ ν τ) (x : Sequences κ ν τ) : Prop where
  queues : s.queues.Represents x.seq
  ptr : s.ptr = x.ptr

/-- A list is its sequence in both directions. -/
structure Shows (s : Lists κ ν τ) (x : Sequences κ ν τ) (i : κ) : Prop where
  next : Follows s.queues.links.next (s.queues.list i).head (x.seq i)
  prev : Follows s.queues.links.prev (s.queues.list i).tail (x.seq i).reverse
  size : (s.queues.list i).size = (x.seq i).length
  head : (s.queues.list i).head = none ↔ x.seq i = []
  tail : (s.queues.list i).tail = none ↔ x.seq i = []

omit [DecidableEq κ] [DecidableEq ν] [DecidableEq τ] in
theorem Holding.shows (h : Holding s x) (i : κ) : Shows s x i := by
  obtain ⟨hhead, htail, hsize, hlinked, -⟩ := h.queues.holds i
  refine ⟨?_, ?_, hsize, ?_, ?_⟩
  · rw [hhead]
    exact hlinked.follows_next
  · rw [htail]
    exact hlinked.follows_prev
  · rw [hhead, List.head?_eq_none_iff]
  · rw [htail, List.getLast?_eq_none_iff]

omit [DecidableEq κ] [DecidableEq ν] [DecidableEq τ] in
theorem holding_start (links : Links ν) (ptr : ν → τ) :
    Holding (start links ptr : Lists κ ν τ) (.start ptr) :=
  ⟨⟨fun _ => holds_init, nofun⟩, rfl⟩

theorem Holding.exists_step (h : Holding s x) (a : Action κ ν τ) : ∃ t, s.Step a t := by
  cases a with
  | removeEle i ptr =>
    obtain ⟨rounds, q, hremove⟩ := h.queues.exists_removeEle i s.ptr ptr
    exact ⟨_, rounds, q, hremove, rfl⟩
  | append i newNode => exact ⟨_, rfl⟩
  | insert i node newNode => exact ⟨_, rfl⟩
  | remove i node => exact ⟨_, rfl⟩
  | move dst src => exact ⟨_, rfl⟩
  | concate dst src => exact ⟨_, rfl⟩
  | setPtr node ptr => exact ⟨_, rfl⟩

theorem Holding.step (h : Holding s x) (hlegal : x.Legal a) (hstep : s.Step a t) :
    Holding t (x.apply a) := by
  obtain ⟨hqueues, hptr⟩ := h
  cases a with
  | append i newNode =>
    obtain rfl := hstep
    exact ⟨hqueues.append hlegal, hptr⟩
  | insert i node newNode =>
    obtain rfl := hstep
    obtain ⟨xs, ys, hseq, rfl, hinsert⟩ := Sequences.insertBehind_eq (n := newNode) hlegal.1
    refine ⟨?_, hptr⟩
    rw [Sequences.apply, hinsert]
    exact hqueues.insert hseq hlegal.2
  | remove i node =>
    obtain rfl := hstep
    obtain ⟨xs, ys, -, hseq, herase⟩ := List.exists_erase_eq hlegal
    refine ⟨?_, hptr⟩
    rw [Sequences.apply, herase]
    exact hqueues.remove hseq
  | removeEle i ptr =>
    obtain ⟨rounds, q, hremove, rfl⟩ := hstep
    rw [hptr] at hremove
    exact ⟨hqueues.removeEle hremove, hptr⟩
  | move dst src =>
    obtain rfl := hstep
    exact ⟨hqueues.move_any dst src, hptr⟩
  | concate dst src =>
    obtain rfl := hstep
    exact ⟨hqueues.concate dst src, hptr⟩
  | setPtr node ptr =>
    obtain rfl := hstep
    exact ⟨hqueues, congrArg (Function.update · node ptr) hptr⟩

theorem Holding.exists_run {y : Sequences κ ν τ} (h : Holding s x) (happlies : Run Applies x as y) :
    ∃ t, Run Step s as t ∧ Holding t y := by
  refine @Run.simulate _ _ _ _ _ _ _ _ (fun x s => Holding s x) ?_ happlies s h
  rintro x a y s hs ⟨hlegal, rfl⟩
  obtain ⟨t, hstep⟩ := hs.exists_step a
  exact ⟨t, hstep, hs.step hlegal hstep⟩

theorem Holding.run {y : Sequences κ ν τ} (h : Holding s x) (happlies : Run Applies x as y)
    (hrun : Run Step s as t) : Holding t y := by
  induction happlies generalizing s with
  | nil x =>
    cases hrun
    exact h
  | cons head tail ih =>
    obtain ⟨hlegal, rfl⟩ := head
    cases hrun with
    | cons hstep hrun => exact ih (h.step hlegal hstep) hrun

/-- Legal operations return, and in all states that they lead to the lists are the sequences that the
operations on sequences give. -/
theorem lists_refine_sequences (links : Links ν) {ptr : ν → τ}
    (h : Run Applies (Sequences.start ptr : Sequences κ ν τ) as x) :
    (∃ s, Run Step (start links ptr) as s) ∧
      ∀ s, Run Step (start links ptr) as s → ∀ i, Shows s x i := by
  have hstart : Holding (start links ptr : Lists κ ν τ) (.start ptr) := holding_start links ptr
  constructor
  · obtain ⟨s, hrun, -⟩ := hstart.exists_run h
    exact ⟨s, hrun⟩
  · exact fun s hrun i => (hstart.run h hrun).shows i

/-- Two lists are filled, put together, and a node that is named by its pointer is removed. -/
def sampleActions : List (Action Bool Nat Nat) :=
  [.append false 1, .append false 2, .insert false (some 1) 3, .insert true none 4, .setPtr 3 9,
    .concate false true, .removeEle false 9, .remove false 1]

theorem sample_lists : ∃ s, Run Step (start ⟨some, some⟩ id) sampleActions s ∧
    Follows s.queues.links.next (s.queues.list false).head [2, 4] ∧
      Follows s.queues.links.prev (s.queues.list false).tail [4, 2] := by
  have hsample : ∃ x, Run Applies (.start id) sampleActions x ∧ x.seq false = [2, 4] := by
    refine ⟨_, .cons ⟨fun j => ?_, rfl⟩ <| .cons ⟨fun j => ?_, rfl⟩ <|
      .cons ⟨⟨fun n hn => ?_, fun j => ?_⟩, rfl⟩ <| .cons ⟨⟨nofun, fun j => ?_⟩, rfl⟩ <|
      .cons ⟨trivial, rfl⟩ <| .cons ⟨trivial, rfl⟩ <| .cons ⟨trivial, rfl⟩ <|
      .cons ⟨?_, rfl⟩ <| .nil _, ?_⟩
    · cases j <;> decide
    · cases j <;> decide
    · obtain rfl := Option.some.inj hn
      decide
    · cases j <;> decide
    · cases j <;> decide
    · exact (by decide : 1 ∈ [1, 2, 4])
    · decide
  obtain ⟨x, hx, hseq⟩ := hsample
  obtain ⟨⟨s, hrun⟩, hall⟩ := lists_refine_sequences ⟨some, some⟩ hx
  obtain ⟨hnext, hprev, -⟩ := hall s hrun false
  rw [hseq] at hnext hprev
  exact ⟨s, hrun, hnext, hprev⟩

end Lists

end LuckOS
