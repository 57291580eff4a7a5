import Mathlib.Data.List.Nodup
import Mathlib.Logic.Function.Basic

/-!
# Intrusive linked lists of `utils/linked_list.c`

The links of all nodes are kept in one place, and a list is its head, its tail and its
size. A family of lists represents a family of sequences if the links of the nodes run
through each sequence in both directions and no node occurs twice. Each operation is
given as the code has it, together with the sequences it represents. A store through a
null pointer is left out; it does not occur in a represented list.
-/

namespace LuckOS

universe u v

/-- `prev` and `next` of the nodes. -/
structure Links (ν : Type u) where
  prev : ν → Option ν
  next : ν → Option ν

/-- `linked_list_t`. -/
structure LinkedList (ν : Type u) where
  head : Option ν
  tail : Option ν
  size : Nat

namespace Links

variable {ν : Type u} [DecidableEq ν]

def setPrev (k : Links ν) (n p : Option ν) : Links ν :=
  match n with
  | none => k
  | some m => { k with prev := Function.update k.prev m p }

def setNext (k : Links ν) (n p : Option ν) : Links ν :=
  match n with
  | none => k
  | some m => { k with next := Function.update k.next m p }

/-- The links of a node are the same. -/
def SameAt (k k' : Links ν) (m : ν) : Prop := k'.prev m = k.prev m ∧ k'.next m = k.next m

variable {k : Links ν} {m : ν}

omit [DecidableEq ν] in
theorem SameAt.refl (k : Links ν) (m : ν) : SameAt k k m := ⟨rfl, rfl⟩

theorem sameAt_setPrev {n p : Option ν} (h : n ≠ some m) : SameAt k (k.setPrev n p) m := by
  cases n with
  | none => exact .refl k m
  | some x => exact ⟨Function.update_of_ne (fun heq => h (congrArg some heq.symm)) .., rfl⟩

theorem sameAt_setNext {n p : Option ν} (h : n ≠ some m) : SameAt k (k.setNext n p) m := by
  cases n with
  | none => exact .refl k m
  | some x => exact ⟨rfl, Function.update_of_ne (fun heq => h (congrArg some heq.symm)) ..⟩

omit [DecidableEq ν] in
theorem SameAt.trans {k' k'' : Links ν} (h : SameAt k k' m) (h' : SameAt k' k'' m) : SameAt k k'' m :=
  ⟨h'.1.trans h.1, h'.2.trans h.2⟩

@[simp] theorem setNext_prev (n p : Option ν) : (k.setNext n p).prev = k.prev := by cases n <;> rfl

@[simp] theorem setPrev_next (n p : Option ν) : (k.setPrev n p).next = k.next := by cases n <;> rfl

@[simp] theorem setNext_next_self (p : Option ν) : (k.setNext (some m) p).next m = p := Function.update_self ..

@[simp] theorem setPrev_prev_self (p : Option ν) : (k.setPrev (some m) p).prev m = p := Function.update_self ..

end Links

namespace LinkedList

variable {ν : Type u} [DecidableEq ν]

/-- `linked_list_init`. -/
def init : LinkedList ν := ⟨none, none, 0⟩

/-- `linked_list_append`. -/
def append (k : Links ν) (l : LinkedList ν) (newNode : ν) : Links ν × LinkedList ν :=
  let k := k.setNext (some newNode) none
  if l.size = 0 then (k.setPrev (some newNode) none, ⟨some newNode, some newNode, l.size + 1⟩)
  else
    let tail := l.tail
    ((k.setNext tail (some newNode)).setPrev (some newNode) tail, ⟨l.head, some newNode, l.size + 1⟩)

/-- `linked_list_insert`: behind `node`, or to the head for a null pointer. -/
def insert (k : Links ν) (l : LinkedList ν) (node : Option ν) (newNode : ν) : Links ν × LinkedList ν :=
  let k := k.setPrev (some newNode) node
  let (nextNode, k, head) := match node with
    | none => (l.head, k, some newNode)
    | some n => (k.next n, k.setNext (some n) (some newNode), l.head)
  let k := k.setNext (some newNode) nextNode
  (k.setPrev nextNode (some newNode), ⟨head, if nextNode.isSome then l.tail else some newNode, l.size + 1⟩)

/-- `linked_list_insert_to_head`. -/
def insertToHead (k : Links ν) (l : LinkedList ν) (newNode : ν) : Links ν × LinkedList ν :=
  insert k l l.head newNode

/-- `linked_list_remove`. -/
def remove (k : Links ν) (l : LinkedList ν) (node : ν) : Links ν × LinkedList ν :=
  let prevNode := k.prev node
  let nextNode := k.next node
  let k := k.setNext prevNode nextNode
  (k.setPrev nextNode prevNode,
    ⟨if prevNode.isSome then l.head else nextNode, if nextNode.isSome then l.tail else prevNode, l.size - 1⟩)

/-- `linked_list_move`: the destination and the source. -/
def move (src : LinkedList ν) : LinkedList ν × LinkedList ν := (src, init)

/-- The links run through the nodes, from a node in front of them to a node behind them. -/
def Linked (k : Links ν) : Option ν → List ν → Option ν → Prop
  | _, [], _ => True
  | p, x :: xs, q => k.prev x = p ∧ k.next x = xs.head?.or q ∧ Linked k (some x) xs q

/-- The list holds a sequence of different nodes. -/
structure Holds (k : Links ν) (l : LinkedList ν) (xs : List ν) : Prop where
  head : l.head = xs.head?
  tail : l.tail = xs.getLast?
  size : l.size = xs.length
  linked : Linked k none xs none
  nodup : xs.Nodup

variable {k k' : Links ν} {l : LinkedList ν} {xs ys : List ν} {n : ν} {p q : Option ν}

omit [DecidableEq ν] in
theorem Linked.congr (h : Linked k p xs q) (hsame : ∀ m ∈ xs, Links.SameAt k k' m) : Linked k' p xs q := by
  induction xs generalizing p with
  | nil => trivial
  | cons x xs ih =>
    obtain ⟨hprev, hnext, hrest⟩ := h
    obtain ⟨hp, hn⟩ := hsame x (List.mem_cons_self ..)
    exact ⟨hp.trans hprev, hn.trans hnext, ih hrest fun m hm => hsame m (List.mem_cons_of_mem x hm)⟩

omit [DecidableEq ν] in
theorem linked_append : Linked k p (xs ++ ys) q ↔
    Linked k p xs (ys.head?.or q) ∧ Linked k (xs.getLast?.or p) ys q := by
  induction xs generalizing p with
  | nil => simp [Linked]
  | cons x xs ih =>
    have hlast : (x :: xs).getLast?.or p = xs.getLast?.or (some x) := by
      cases hx : xs.getLast? <;> simp [List.getLast?_cons, hx]
    simp only [List.cons_append, Linked, ih, hlast, List.head?_append, Option.or_assoc, and_assoc]

omit [DecidableEq ν] in
theorem holds_init : Holds k (init : LinkedList ν) [] := ⟨rfl, rfl, rfl, trivial, .nil⟩

omit [DecidableEq ν] in
theorem Holds.congr (h : Holds k l xs) (hsame : ∀ m ∈ xs, Links.SameAt k k' m) : Holds k' l xs :=
  ⟨h.head, h.tail, h.size, h.linked.congr hsame, h.nodup⟩

omit [DecidableEq ν] in
theorem Linked.eq_of_head? {p' : Option ν} (h : Linked k p xs none) (h' : Linked k p' ys none)
    (hhead : xs.head? = ys.head?) : xs = ys := by
  induction xs generalizing p p' ys with
  | nil =>
    cases ys with
    | nil => rfl
    | cons y ys => cases hhead
  | cons x xs ih =>
    cases ys with
    | nil => cases hhead
    | cons y ys =>
      obtain rfl := Option.some.inj hhead
      obtain ⟨-, hnext, hrest⟩ := h
      obtain ⟨-, hnext', hrest'⟩ := h'
      rw [Option.or_none] at hnext hnext'
      rw [ih hrest hrest' (hnext.symm.trans hnext')]

omit [DecidableEq ν] in
theorem Holds.unique (h : Holds k l xs) (h' : Holds k l ys) : xs = ys :=
  h.linked.eq_of_head? h'.linked (h.head.symm.trans h'.head)

omit [DecidableEq ν] in
theorem Holds.size_eq_zero (h : Holds k l xs) : l.size = 0 ↔ xs = [] := by
  rw [h.size, List.length_eq_zero_iff]

/-- The last node is linked to another node. -/
theorem Linked.setNext_getLast {r : Option ν} (h : Linked k p xs q) (hnodup : xs.Nodup) :
    Linked (k.setNext xs.getLast? r) p xs r := by
  rcases List.eq_nil_or_concat xs with rfl | ⟨ys, t, rfl⟩
  · trivial
  · rw [List.concat_eq_append] at h hnodup ⊢
    obtain ⟨-, -, hdisj⟩ := List.nodup_append'.mp hnodup
    obtain ⟨hys, hprev, -, -⟩ := linked_append.mp h
    rw [List.getLast?_append, List.getLast?_singleton, Option.some_or]
    refine linked_append.mpr ⟨hys.congr fun m hm => Links.sameAt_setNext ?_, ?_, ?_, trivial⟩
    · intro heq
      exact hdisj hm (by simpa using heq.symm)
    · rw [Links.setNext_prev, hprev]
    · rw [Links.setNext_next_self]
      rfl

/-- The first node is linked to another node. -/
theorem Linked.setPrev_head {r : Option ν} (h : Linked k p xs q) (hnodup : xs.Nodup) :
    Linked (k.setPrev xs.head? r) r xs q := by
  cases xs with
  | nil => trivial
  | cons x xs =>
    obtain ⟨-, hnext, hrest⟩ := h
    obtain ⟨hx, -⟩ := List.nodup_cons.mp hnodup
    refine ⟨Links.setPrev_prev_self r, ?_, hrest.congr fun m hm => Links.sameAt_setPrev ?_⟩
    · rw [Links.setPrev_next, hnext]
    · intro heq
      exact hx (Option.some.inj heq ▸ hm)

theorem append_holds (h : Holds k l xs) (hn : n ∉ xs) :
    Holds (append k l n).1 (append k l n).2 (xs ++ [n]) := by
  have hnodup : (xs ++ [n]).Nodup := List.nodup_append'.mpr ⟨h.nodup, List.nodup_singleton n, by simpa using hn⟩
  rw [append]
  split_ifs with hsize
  · obtain rfl := h.size_eq_zero.mp hsize
    exact ⟨rfl, rfl, congrArg (· + 1) h.size, by simp [Linked], hnodup⟩
  · have hother : ∀ m ∈ xs, some n ≠ some m := fun m hm heq => hn (Option.some.inj heq ▸ hm)
    have hlast : xs.getLast? ≠ some n := fun heq => hn (List.mem_of_getLast? heq)
    simp only [h.tail]
    refine ⟨?_, by simp, by simp [h.size], linked_append.mpr ⟨?_, ?_, ?_, trivial⟩, hnodup⟩
    · rw [h.head]
      have hne : xs ≠ [] := fun heq => hsize (h.size_eq_zero.mpr heq)
      cases xs with
      | nil => exact absurd rfl hne
      | cons x xs => rfl
    · have hfirst := h.linked.congr fun m hm => Links.sameAt_setNext (p := none) (hother m hm)
      exact (hfirst.setNext_getLast h.nodup).congr fun m hm => Links.sameAt_setPrev (hother m hm)
    · simp
    · rw [Links.setPrev_next, (Links.sameAt_setNext hlast).2, Links.setNext_next_self]
      rfl

/-- Nodes outside of the list are not touched. -/
theorem append_sameAt (h : Holds k l xs) {m : ν} (hm : m ∉ xs) (hne : m ≠ n) :
    Links.SameAt k (append k l n).1 m := by
  have hn : some n ≠ some m := by simpa using hne.symm
  rw [append]
  split_ifs
  · exact (Links.sameAt_setNext hn).trans (Links.sameAt_setPrev hn)
  · refine ((Links.sameAt_setNext hn).trans (Links.sameAt_setNext ?_)).trans (Links.sameAt_setPrev hn)
    intro htail
    exact hm (List.mem_of_getLast? (h.tail.symm.trans htail))

theorem remove_holds (h : Holds k l (xs ++ n :: ys)) :
    Holds (remove k l n).1 (remove k l n).2 (xs ++ ys) := by
  obtain ⟨hxs, hprev, hnext, hys⟩ := linked_append.mp h.linked
  have hprev : k.prev n = xs.getLast? := by simpa using hprev
  have hnext : k.next n = ys.head? := by simpa using hnext
  have hperm : (n :: (xs ++ ys)).Nodup := List.perm_middle.nodup_iff.mp h.nodup
  obtain ⟨-, hnodup⟩ := List.nodup_cons.mp hperm
  obtain ⟨hnodupx, hnodupy, hdisj⟩ := List.nodup_append'.mp hnodup
  simp only [remove, hprev, hnext]
  refine ⟨?_, ?_, ?_, linked_append.mpr ⟨?_, ?_⟩, hnodup⟩
  · rw [h.head]
    cases xs <;> simp
  · rw [h.tail]
    cases ys <;> simp [List.getLast?_append, List.getLast?_cons]
  · simp only [h.size, List.length_append, List.length_cons]
    omega
  · rw [Option.or_none]
    refine (hxs.setNext_getLast hnodupx).congr fun m hm => Links.sameAt_setPrev fun heq => ?_
    exact hdisj hm (List.mem_of_mem_head? heq)
  · rw [Option.or_none]
    refine Linked.setPrev_head (hys.congr fun m hm => Links.sameAt_setNext fun heq => ?_) hnodupy
    exact hdisj (List.mem_of_getLast? heq) hm

theorem remove_sameAt (h : Holds k l (xs ++ n :: ys)) {m : ν} (hm : m ∉ xs ++ n :: ys) :
    Links.SameAt k (remove k l n).1 m := by
  obtain ⟨-, hprev, hnext, -⟩ := linked_append.mp h.linked
  have hprev : k.prev n = xs.getLast? := by simpa using hprev
  have hnext : k.next n = ys.head? := by simpa using hnext
  simp only [remove, hprev, hnext]
  refine (Links.sameAt_setNext fun heq => hm ?_).trans (Links.sameAt_setPrev fun heq => hm ?_)
  · exact List.mem_append_left _ (List.mem_of_getLast? heq)
  · exact List.mem_append_right _ (List.mem_cons_of_mem _ (List.mem_of_mem_head? heq))

/-- The node behind which a node is inserted is the last one of the first part. -/
theorem insert_eq (h : Holds k l (xs ++ ys)) :
    insert k l xs.getLast? n =
      ((((k.setPrev (some n) xs.getLast?).setNext xs.getLast? (some n)).setNext (some n) ys.head?).setPrev ys.head? (some n),
        ⟨(xs ++ n :: ys).head?, (xs ++ n :: ys).getLast?, l.size + 1⟩) := by
  have htail : (if ys.head?.isSome then l.tail else some n) = (xs ++ n :: ys).getLast? := by
    rw [h.tail]
    cases ys <;> simp [List.getLast?_append, List.getLast?_cons]
  rcases List.eq_nil_or_concat xs with rfl | ⟨zs, t, rfl⟩
  · have hhead : l.head = ys.head? := h.head
    simp only [insert, List.getLast?_nil, hhead, htail]
    rfl
  · rw [List.concat_eq_append] at h htail ⊢
    have hnext : k.next t = ys.head? := by
      have hlinked := (linked_append.mp h.linked).1
      simpa using (linked_append.mp hlinked).2.2.1
    have hhead : l.head = (zs ++ [t] ++ n :: ys).head? := by
      rw [h.head]
      cases zs <;> simp
    simp only [insert, List.getLast?_append, List.getLast?_singleton, Option.some_or, Links.setPrev_next, hnext, hhead, htail]

theorem insert_holds (h : Holds k l (xs ++ ys)) (hn : n ∉ xs ++ ys) :
    Holds (insert k l xs.getLast? n).1 (insert k l xs.getLast? n).2 (xs ++ n :: ys) := by
  obtain ⟨hnx, hny⟩ := not_or.mp (fun hor => hn (List.mem_append.mpr hor))
  obtain ⟨hnodupx, hnodupy, hdisj⟩ := List.nodup_append'.mp h.nodup
  have hlast : xs.getLast? ≠ some n := fun heq => hnx (List.mem_of_getLast? heq)
  have hhead : ys.head? ≠ some n := fun heq => hny (List.mem_of_mem_head? heq)
  obtain ⟨hxs, hys⟩ := linked_append.mp h.linked
  rw [insert_eq h]
  refine ⟨rfl, rfl, ?_, linked_append.mpr ⟨?_, ?_, ?_, ?_⟩, ?_⟩
  · simp only [h.size, List.length_append, List.length_cons]
    omega
  · have hother : ∀ m ∈ xs, some n ≠ some m := fun m hm heq => hnx (Option.some.inj heq ▸ hm)
    have hfirst := hxs.congr fun m hm => Links.sameAt_setPrev (p := xs.getLast?) (hother m hm)
    refine (hfirst.setNext_getLast hnodupx).congr fun m hm => ?_
    refine (Links.sameAt_setNext (hother m hm)).trans (Links.sameAt_setPrev fun heq => ?_)
    exact hdisj hm (List.mem_of_mem_head? heq)
  · rw [(Links.sameAt_setPrev hhead).1, Links.setNext_prev, Links.setNext_prev, Links.setPrev_prev_self, Option.or_none]
  · rw [Links.setPrev_next, Links.setNext_next_self, Option.or_none]
  · refine Linked.setPrev_head (hys.congr fun m hm => ?_) hnodupy
    have hother : some n ≠ some m := fun heq => hny (Option.some.inj heq ▸ hm)
    refine ((Links.sameAt_setPrev hother).trans (Links.sameAt_setNext fun heq => ?_)).trans (Links.sameAt_setNext hother)
    exact hdisj (List.mem_of_getLast? heq) hm
  · refine List.perm_middle.nodup_iff.mpr (List.nodup_cons.mpr ⟨hn, h.nodup⟩)

theorem insert_sameAt (h : Holds k l (xs ++ ys)) {m : ν} (hm : m ∉ xs ++ ys) (hne : m ≠ n) :
    Links.SameAt k (insert k l xs.getLast? n).1 m := by
  have hn : some n ≠ some m := by simpa using hne.symm
  rw [insert_eq h]
  refine (((Links.sameAt_setPrev hn).trans (Links.sameAt_setNext fun heq => hm ?_)).trans (Links.sameAt_setNext hn)).trans
    (Links.sameAt_setPrev fun heq => hm ?_)
  · exact List.mem_append_left _ (List.mem_of_getLast? heq)
  · exact List.mem_append_right _ (List.mem_of_mem_head? heq)

end LinkedList

/-- A family of lists over common nodes. -/
structure Queues (κ : Type v) (ν : Type u) where
  links : Links ν
  list : κ → LinkedList ν

namespace Queues

open LinkedList Function

variable {κ : Type v} {ν : Type u} [DecidableEq κ] [DecidableEq ν]

def set (s : Queues κ ν) (i : κ) (r : Links ν × LinkedList ν) : Queues κ ν := ⟨r.1, update s.list i r.2⟩

def append (s : Queues κ ν) (i : κ) (newNode : ν) : Queues κ ν := s.set i (LinkedList.append s.links (s.list i) newNode)

def insert (s : Queues κ ν) (i : κ) (node : Option ν) (newNode : ν) : Queues κ ν :=
  s.set i (LinkedList.insert s.links (s.list i) node newNode)

def insertToHead (s : Queues κ ν) (i : κ) (newNode : ν) : Queues κ ν :=
  s.set i (LinkedList.insertToHead s.links (s.list i) newNode)

def remove (s : Queues κ ν) (i : κ) (node : ν) : Queues κ ν := s.set i (LinkedList.remove s.links (s.list i) node)

def move (s : Queues κ ν) (dst src : κ) : Queues κ ν :=
  let r := LinkedList.move (s.list src)
  { s with list := update (update s.list dst r.1) src r.2 }

/-- Each list holds its sequence, and no node is in two lists. -/
structure Represents (s : Queues κ ν) (q : κ → List ν) : Prop where
  holds : ∀ i, Holds s.links (s.list i) (q i)
  apart : ∀ {i j n}, n ∈ q i → n ∈ q j → i = j

variable {s : Queues κ ν} {q : κ → List ν} {i j : κ} {n : ν} {xs ys : List ν}

/-- The sequence that is inserted behind the first node. -/
def insertSecond (n : ν) : List ν → List ν
  | [] => [n]
  | x :: xs => x :: n :: xs

omit [DecidableEq ν] in
theorem mem_insertSecond {m : ν} : m ∈ insertSecond n xs ↔ m = n ∨ m ∈ xs := by
  cases xs with
  | nil => simp [insertSecond]
  | cons x xs =>
    simp only [insertSecond, List.mem_cons]
    tauto

namespace Represents

/-- One list is changed, and of the nodes of the other lists no links are. -/
theorem update_list {r : Links ν × LinkedList ν} (h : Represents s q) (hholds : Holds r.1 r.2 xs)
    (hsame : ∀ m, m ∉ q i → m ∉ xs → Links.SameAt s.links r.1 m) (hnew : ∀ m ∈ xs, m ∉ q i → ∀ j, m ∉ q j) :
    Represents (s.set i r) (update q i xs) := by
  have hother : ∀ j m, j ≠ i → m ∈ q j → m ∉ xs := by
    intro j m hj hm hx
    by_cases hi : m ∈ q i
    · exact hj (h.apart hm hi)
    · exact hnew m hx hi j hm
  refine ⟨fun j => ?_, fun {j l m} hm hm' => ?_⟩
  · by_cases hj : j = i
    · subst hj
      simpa [set] using hholds
    · simp only [set, update_of_ne hj]
      refine (h.holds j).congr fun m hm => hsame m (fun hi => hj (h.apart hm hi)) (hother j m hj hm)
  · by_cases hj : j = i <;> by_cases hl : l = i
    · rw [hj, hl]
    · subst hj
      rw [update_self] at hm
      rw [update_of_ne hl] at hm'
      exact absurd hm (hother l m hl hm')
    · subst hl
      rw [update_self] at hm'
      rw [update_of_ne hj] at hm
      exact absurd hm' (hother j m hj hm)
    · rw [update_of_ne hj] at hm
      rw [update_of_ne hl] at hm'
      exact h.apart hm hm'

theorem append (h : Represents s q) (hn : ∀ j, n ∉ q j) :
    Represents (s.append i n) (update q i (q i ++ [n])) := by
  refine h.update_list (append_holds (h.holds i) (hn i)) ?_ ?_
  · intro m hm hx
    exact append_sameAt (h.holds i) hm fun heq => hx (by simp [heq])
  · intro m hx hm j
    obtain rfl : m = n := by simpa [hm] using hx
    exact hn j

theorem remove (h : Represents s q) (hq : q i = xs ++ n :: ys) :
    Represents (s.remove i n) (update q i (xs ++ ys)) := by
  have hholds := h.holds i
  rw [hq] at hholds
  refine h.update_list (remove_holds hholds) ?_ ?_
  · intro m hm _
    rw [hq] at hm
    exact remove_sameAt hholds hm
  · intro m hx hm
    refine absurd ?_ hm
    rw [hq, List.mem_append, List.mem_cons]
    exact (List.mem_append.mp hx).imp_right .inr

theorem insert (h : Represents s q) (hq : q i = xs ++ ys) (hn : ∀ j, n ∉ q j) :
    Represents (s.insert i xs.getLast? n) (update q i (xs ++ n :: ys)) := by
  have hholds := h.holds i
  have hni := hn i
  rw [hq] at hholds hni
  refine h.update_list (insert_holds hholds hni) (fun m hm hx => ?_) fun m hx hm j => ?_
  · rw [hq] at hm
    exact insert_sameAt hholds hm fun heq => hx (by simp [heq])
  · rw [hq] at hm
    have hnew : m = n := by
      simp only [List.mem_append, List.mem_cons] at hx hm
      tauto
    exact hnew ▸ hn j

theorem insertToHead (h : Represents s q) (hn : ∀ j, n ∉ q j) :
    Represents (s.insertToHead i n) (update q i (insertSecond n (q i))) := by
  have hsplit : ∃ zs ws, q i = zs ++ ws ∧ insertSecond n (q i) = zs ++ n :: ws ∧ (s.list i).head = zs.getLast? := by
    rw [(h.holds i).head]
    cases q i with
    | nil => exact ⟨[], [], rfl, rfl, rfl⟩
    | cons x xs => exact ⟨[x], xs, rfl, rfl, rfl⟩
  obtain ⟨zs, ws, hq, hins, hhead⟩ := hsplit
  rw [hins, Queues.insertToHead, LinkedList.insertToHead, hhead]
  exact h.insert hq hn

omit [DecidableEq ν] in
/-- Nodes of two lists become the nodes of one, and the other is empty. -/
theorem transfer {k : Links ν} {dst : LinkedList ν} (h : Represents s q) (hne : i ≠ j)
    (hholds : Holds k dst xs) (hmem : ∀ m ∈ xs, m ∈ q i ∨ m ∈ q j)
    (hsame : ∀ m, m ∉ q i → m ∉ q j → Links.SameAt s.links k m) :
    Represents ⟨k, update (update s.list i dst) j init⟩ (update (update q i xs) j []) := by
  have hcases : ∀ l m, m ∈ update (update q i xs) j [] l →
      l = i ∧ (m ∈ q i ∨ m ∈ q j) ∨ l ≠ i ∧ l ≠ j ∧ m ∈ q l := by
    intro l m hl
    by_cases hj : l = j
    · subst hj
      rw [update_self] at hl
      cases hl
    · rw [update_of_ne hj] at hl
      by_cases hi : l = i
      · subst hi
        rw [update_self] at hl
        exact .inl ⟨rfl, hmem m hl⟩
      · rw [update_of_ne hi] at hl
        exact .inr ⟨hi, hj, hl⟩
  have hold : ∀ {l m}, l ≠ i → l ≠ j → m ∈ q l → m ∉ q i ∧ m ∉ q j :=
    fun hi hj hm => ⟨fun hmi => hi (h.apart hm hmi), fun hmj => hj (h.apart hm hmj)⟩
  refine ⟨fun l => ?_, fun {l l' m} hm hm' => ?_⟩
  · by_cases hj : l = j
    · subst hj
      simp only [update_self]
      exact holds_init
    · by_cases hi : l = i
      · subst hi
        simp only [update_of_ne hne, update_self]
        exact hholds
      · simp only [update_of_ne hj, update_of_ne hi]
        exact (h.holds l).congr fun m hm => hsame m (hold hi hj hm).1 (hold hi hj hm).2
  · rcases hcases l m hm with ⟨hl, hq⟩ | ⟨hli, hlj, hq⟩ <;>
      rcases hcases l' m hm' with ⟨hl', hq'⟩ | ⟨hli', hlj', hq'⟩
    · rw [hl, hl']
    · exact absurd hq (not_or.mpr (hold hli' hlj' hq'))
    · exact absurd hq' (not_or.mpr (hold hli hlj hq))
    · exact h.apart hq hq'

omit [DecidableEq ν] in
theorem move (h : Represents s q) (hne : i ≠ j) :
    Represents (s.move i j) (update (update q i (q j)) j []) :=
  h.transfer hne (h.holds j) (fun _ => .inr) fun m _ _ => .refl s.links m

omit [DecidableEq κ] [DecidableEq ν] in
theorem head_eq (h : Represents s q) (i : κ) : (s.list i).head = (q i).head? := (h.holds i).head

omit [DecidableEq κ] [DecidableEq ν] in
theorem size_eq (h : Represents s q) (i : κ) : (s.list i).size = (q i).length := (h.holds i).size

end Represents

end Queues

end LuckOS
