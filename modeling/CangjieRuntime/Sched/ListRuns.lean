/-
  The scheduler's lists refine sequences (`rt.sched/List.cj`).

  The state is the memory and, for every head, the sequence its list stands for.  An action makes
  the source's writes in the memory and the operation's own step on the sequences (`Action.model`);
  the invariant says that every list is the ring of its sequence (`Represents`).

  Whatever the operation, the memory changes by one of the two edits of a ring: a path of nodes that
  no list has is put in (`Represents.splice`), or a segment is taken out and is such a path
  afterwards (`Represents.unlink`).  A move is the second on one list and the first on another.
-/
import CangjieRuntime.Lib.Runs
import CangjieRuntime.Sched.List

set_option linter.unusedVariables false

namespace CangjieRuntime.Sched

open Rings Runs

namespace Dulink

/-! ## The machine -/

/-- The links of all nodes, and the sequence of every list by its head. -/
structure State (α : Type) where
  memory : Links α
  lists : α → Option (List α)

/-- The operations, by callers that know the list an item is in and the nodes of a chain; and a
    caller's own write to a node that no list has.  `DulinkInit` makes a node the head of an empty
    list (`init`); of a node that becomes an element it is the write of its own address
    (`write x x x`). -/
inductive Action (α : Type)
  | init (dulink : α)
  | add (item place list : α)
  | remove (item list : α)
  | pushtail (dulink node : α)
  | pushHead (dulink node : α)
  | popTail (dulink : α)
  | popHead (dulink : α)
  | insertHead (head beg last : α) (chain : List α)
  | move (toHead fromHead : α) (countOfMoveOrReserve : Int32)
  | write (node next prev : α)

section Machine

variable {α : Type} [DecidableEq α]

/-- What the source does to the memory. -/
def Action.exec (m : Links α) : Action α → Links α
  | .init dulink => dulinkInit m dulink
  | .add item place _ => dulinkAdd m item place
  | .remove item _ => dulinkRemove m item
  | .pushtail dulink node => dulinkPushtail m dulink node
  | .pushHead dulink node => dulinkPushHead m dulink node
  | .popTail dulink => dulinkPopTail m dulink
  | .popHead dulink => dulinkPopHead m dulink
  | .insertHead head beg last _ => dulinkInsertHead m head beg last
  | .move toHead fromHead count => dulinkMove m toHead fromHead count
  | .write node next prev => dulinkSetPrev (dulinkSetNext m node next) node prev

/-- `item` behind `place`. -/
def insertAfter (place item : α) : List α → List α
  | [] => []
  | x :: l => if x = place then x :: item :: l else x :: insertAfter place item l

/-- Change one sequence. -/
def modify (lists : α → Option (List α)) (h : α) (f : List α → List α) : α → Option (List α) :=
  Function.update lists h ((lists h).map f)

/-- What the operation does to the sequences. -/
def Action.model (lists : α → Option (List α)) : Action α → α → Option (List α)
  | .init dulink => Function.update lists dulink (some [])
  | .add item place list => modify lists list fun l => (insertAfter place item (list :: l)).tail
  | .remove item list => modify lists list fun l => l.erase item
  | .pushtail dulink node => modify lists dulink fun l => l ++ [node]
  | .pushHead dulink node => modify lists dulink fun l => node :: l
  | .popTail dulink => modify lists dulink List.dropLast
  | .popHead dulink => modify lists dulink List.tail
  | .insertHead head _ _ chain => modify lists head fun l => chain ++ l
  | .move toHead fromHead count =>
    let moved := ((lists fromHead).getD []).take (moveCount count ((lists fromHead).getD []).length)
    modify (modify lists fromHead fun l => l.drop (moveCount count l.length)) toHead
      fun l => moved ++ l
  | .write _ _ _ => lists

/-- A node that is no head and in no list.  An element is one before it is put in, also after a
    `DulinkInit` of it. -/
def Detached (lists : α → Option (List α)) (x : α) : Prop :=
  lists x = none ∧ ∀ h l, lists h = some l → x ∉ l

/-- What an operation may be called on. -/
def Action.Allowed (s : State α) : Action α → Prop
  | .init dulink => ∀ h l, s.lists h = some l → dulink ∉ l
  | .add item place list =>
    Detached s.lists item ∧ ∃ l, s.lists list = some l ∧ place ∈ list :: l
  | .remove item list => ∃ l, s.lists list = some l ∧ item ∈ l
  | .pushtail dulink node => Detached s.lists node ∧ ∃ l, s.lists dulink = some l
  | .pushHead dulink node => Detached s.lists node ∧ ∃ l, s.lists dulink = some l
  | .popTail dulink => ∃ l, s.lists dulink = some l ∧ l ≠ []
  | .popHead dulink => ∃ l, s.lists dulink = some l ∧ l ≠ []
  | .insertHead head beg last chain =>
    (∀ x ∈ chain, Detached s.lists x) ∧ chain.Nodup ∧ Path s.memory chain ∧
      chain.head? = some beg ∧ chain.getLast? = some last ∧ ∃ l, s.lists head = some l
  | .move toHead fromHead count => toHead ≠ fromHead ∧ (∃ l, s.lists toHead = some l) ∧
    ∃ l, s.lists fromHead = some l ∧ CountOk count l.length
  | .write node _ _ => Detached s.lists node

/-- The index of a move is a 32-bit integer. -/
def Action.IndexFits : Action α → Prop
  | .move _ _ count => Dulink.IndexFits count
  | _ => True

/-- No lists at first, and then any operations. -/
def machine (α : Type) [DecidableEq α] : System (State α) (Action α) where
  init s := ∀ h, s.lists h = none
  step s a s' := a.Allowed s ∧ s' = ⟨a.exec s.memory, a.model s.lists⟩

/-- The memory holds the sequences: every list is a ring of different nodes, and no two lists have
    a common node. -/
structure Represents (s : State α) : Prop where
  ring : ∀ h l, s.lists h = some l → Ring s.memory h l
  nodup : ∀ h l, s.lists h = some l → (h :: l).Nodup
  disjoint : ∀ h l h' l', h ≠ h' → s.lists h = some l → s.lists h' = some l' →
    (h :: l).Disjoint (h' :: l')

/-! ## The two edits -/

section Edits

variable {s : State α} {h a b x y : α} {l l' u v c : List α}

omit [DecidableEq α] in
/-- A node in no list is in none of its rings. -/
theorem Detached.notMem (hd : Detached s.lists x) (hl : s.lists h = some l) : x ∉ h :: l := by
  intro hmem
  rcases List.mem_cons.mp hmem with rfl | hmem
  · rw [hd.1] at hl
    exact absurd hl nofun
  · exact hd.2 h l hl hmem

/-- One list changes, and the memory of no other. -/
theorem Represents.change (hrep : Represents s) {m : Links α} (hring : Ring m h l')
    (hnodup : (h :: l').Nodup)
    (hother : ∀ h' l, h' ≠ h → s.lists h' = some l → Ring m h' l)
    (hdisjoint : ∀ h' l, h' ≠ h → s.lists h' = some l → (h :: l').Disjoint (h' :: l)) :
    Represents ⟨m, Function.update s.lists h (some l')⟩ := by
  have hlists : ∀ h' l, Function.update s.lists h (some l') h' = some l →
      (h' = h ∧ l = l') ∨ (h' ≠ h ∧ s.lists h' = some l) := by
    intro h' l hl
    by_cases heq : h' = h
    · subst heq
      rw [Function.update_self] at hl
      exact Or.inl ⟨rfl, (Option.some.inj hl).symm⟩
    · rw [Function.update_of_ne heq] at hl
      exact Or.inr ⟨heq, hl⟩
  refine ⟨?_, ?_, ?_⟩
  · intro h₁ l₁ hl₁
    rcases hlists h₁ l₁ hl₁ with ⟨rfl, rfl⟩ | ⟨hne, hl₁⟩
    · exact hring
    · exact hother h₁ l₁ hne hl₁
  · intro h₁ l₁ hl₁
    rcases hlists h₁ l₁ hl₁ with ⟨rfl, rfl⟩ | ⟨hne, hl₁⟩
    · exact hnodup
    · exact hrep.nodup h₁ l₁ hl₁
  · intro h₁ l₁ h₂ l₂ hne hl₁ hl₂
    rcases hlists h₁ l₁ hl₁ with ⟨rfl, rfl⟩ | ⟨hne₁, hold₁⟩
    · rcases hlists h₂ l₂ hl₂ with ⟨rfl, -⟩ | ⟨hne₂, hold₂⟩
      · exact absurd rfl hne
      · exact hdisjoint h₂ l₂ hne₂ hold₂
    · rcases hlists h₂ l₂ hl₂ with ⟨rfl, rfl⟩ | ⟨hne₂, hold₂⟩
      · exact (hdisjoint h₁ l₁ hne₁ hold₁).symm
      · exact hrep.disjoint h₁ l₁ h₂ l₂ hne hold₁ hold₂

/-- A node that no other list than that of `h` has. -/
def Apart (lists : α → Option (List α)) (h x : α) : Prop :=
  ∀ h' l, h' ≠ h → lists h' = some l → x ∉ h' :: l

omit [DecidableEq α] in
/-- A node of one ring is in no other ring. -/
theorem Represents.apart (hrep : Represents s) (hl : s.lists h = some l) (hx : x ∈ h :: l) :
    Apart s.lists h x := fun h' l' hne hl' hx' =>
  hrep.disjoint h l h' l' hne.symm hl hl' hx hx'

/-- **Putting in.**  A path of detached nodes comes into a list.  Every operation that adds nodes is
    one of these, with a path of one node or of many. -/
theorem Represents.splice (hrep : Represents s) (hl : s.lists h = some (u ++ v))
    (hc : Path s.memory c) (hx : c.head? = some x) (hy : c.getLast? = some y) (hnodup : c.Nodup)
    (hdetached : ∀ z ∈ c, Detached s.lists z) :
    Represents ⟨(s.memory.connect (before h u) x).connect y (after v h),
      Function.update s.lists h (some (u ++ c ++ v))⟩ := by
  have hx_mem : x ∈ c := List.mem_of_head? hx
  have hy_mem : y ∈ c := List.mem_of_getLast? hy
  have hbefore := before_mem_append h u v
  have hafter := after_mem_append h u v
  -- the new ring has the nodes of the old one and those of the path
  have hperm : (h :: (u ++ c ++ v)).Perm (c ++ (h :: (u ++ v))) := by
    have hmiddle : (u ++ c ++ v).Perm (c ++ (u ++ v)) := by
      rw [← List.append_assoc]
      exact List.perm_append_comm.append_right v
    exact (hmiddle.cons h).trans List.perm_middle.symm
  have hfresh : c.Disjoint (h :: (u ++ v)) := fun z hz => (hdetached z hz).notMem hl
  have hnodup' : (h :: (u ++ c ++ v)).Nodup := hperm.nodup_iff.mpr
    (List.nodup_append'.mpr ⟨hnodup, hrep.nodup h _ hl, hfresh⟩)
  refine hrep.change ((hrep.ring h _ hl).splice hc hx hy hnodup') hnodup' ?_ ?_
  · intro h' l hne hl'
    refine Ring.connect_of_notMem (Ring.connect_of_notMem (hrep.ring h' l hl') ?_ ?_) ?_ ?_
    · exact hrep.apart hl hbefore h' l hne hl'
    · exact (hdetached x hx_mem).notMem hl'
    · exact (hdetached y hy_mem).notMem hl'
    · exact hrep.apart hl hafter h' l hne hl'
  · intro h' l hne hl' z hz hz'
    rcases List.mem_append.mp (hperm.mem_iff.mp hz) with hzc | hzl
    · exact (hdetached z hzc).notMem hl' hz'
    · exact hrep.apart hl hzl h' l hne hl' hz'

/-- **Taking out.**  A segment leaves a list, and is a path of detached nodes.  Every operation that
    takes nodes out is one of these, and a move is this and the other one after it. -/
theorem Represents.unlink (hrep : Represents s) (hl : s.lists h = some (u ++ c ++ v)) :
    Represents ⟨s.memory.connect (before h u) (after v h),
      Function.update s.lists h (some (u ++ v))⟩ ∧
    Path (s.memory.connect (before h u) (after v h)) c ∧
    ∀ z ∈ c, Detached (Function.update s.lists h (some (u ++ v))) z := by
  have hnodup := hrep.nodup h _ hl
  obtain ⟨hring, hpath⟩ := (hrep.ring h _ hl).unlink hnodup
  have hsub : (h :: (u ++ v)).Sublist (h :: (u ++ c ++ v)) :=
    List.Sublist.cons_cons h ((List.sublist_append_left u c).append_right v)
  have hbefore : before h u ∈ h :: (u ++ c ++ v) := by
    rw [List.append_assoc]
    exact before_mem_append h u (c ++ v)
  have hafter := after_mem_append h (u ++ c) v
  refine ⟨?_, hpath, ?_⟩
  · refine hrep.change hring (hnodup.sublist hsub) ?_ ?_
    · intro h' l hne hl'
      refine Ring.connect_of_notMem (hrep.ring h' l hl') ?_ ?_
      · exact hrep.apart hl hbefore h' l hne hl'
      · exact hrep.apart hl hafter h' l hne hl'
    · intro h' l hne hl' z hz hz'
      exact hrep.apart hl (hsub.subset hz) h' l hne hl' hz'
  · intro z hz
    have hzl : z ∈ u ++ c ++ v := List.mem_append_left v (List.mem_append_right u hz)
    constructor
    · -- a node of the segment is no head
      have hne : z ≠ h := by
        rintro rfl
        exact (List.nodup_cons.mp hnodup).1 hzl
      rw [Function.update_of_ne hne]
      cases hz' : s.lists z with
      | none => rfl
      | some l' =>
        exact absurd List.mem_cons_self
          (hrep.apart hl (List.mem_cons_of_mem h hzl) z l' hne hz')
    · -- and in no list
      intro h' l hl' hz'
      -- neither in the list it came from, nor in another one
      by_cases heq : h' = h
      · subst heq
        rw [Function.update_self] at hl'
        obtain rfl := Option.some.inj hl'
        obtain ⟨hnodup_uc, -, hdisjoint⟩ := List.nodup_append'.mp (List.nodup_cons.mp hnodup).2
        rcases List.mem_append.mp hz' with hzu | hzv
        · exact (List.nodup_append'.mp hnodup_uc).2.2 hzu hz
        · exact hdisjoint (List.mem_append_right u hz) hzv
      · rw [Function.update_of_ne heq] at hl'
        exact hrep.apart hl (List.mem_cons_of_mem h hzl) h' l heq hl'
          (List.mem_cons_of_mem h' hz')

end Edits

/-! ## The operations -/

section Operations

variable {s : State α} {h x : α} {l u v : List α}

/-- To change a list that is there is to set it. -/
theorem modify_eq {f : List α → List α} (hl : s.lists h = some l) :
    modify s.lists h f = Function.update s.lists h (some (f l)) := by
  rw [modify, hl, Option.map_some]

/-- The list that was changed is the new one. -/
theorem modify_self {lists : α → Option (List α)} {f : List α → List α} (hl : lists h = some l) :
    modify lists h f h = some (f l) := by
  rw [modify, Function.update_self, hl, Option.map_some]

/-- A node that is in no list becomes the head of an empty one. -/
theorem Represents.init (hrep : Represents s) (hnotin : ∀ h l, s.lists h = some l → x ∉ l) :
    Represents ⟨dulinkInit s.memory x, Function.update s.lists x (some [])⟩ := by
  rw [dulinkInit_eq]
  refine hrep.change (ring_nil.mpr (linked_connect _ x x)) (List.nodup_singleton x) ?_ ?_
  · intro h' l hne hl
    have hx : x ∉ h' :: l := fun hmem => by
      rcases List.mem_cons.mp hmem with rfl | hmem
      · exact hne rfl
      · exact hnotin h' l hl hmem
    exact (hrep.ring h' l hl).connect_of_notMem hx hx
  · intro h' l hne hl
    rw [List.disjoint_comm]
    intro z hz hzx
    obtain rfl := List.mem_singleton.mp hzx
    rcases List.mem_cons.mp hz with rfl | hz
    · exact hne rfl
    · exact hnotin h' l hl hz

/-- A detached node comes between two neighbours. -/
theorem Represents.insert (hrep : Represents s) (hl : s.lists h = some (u ++ v))
    (hd : Detached s.lists x) :
    Represents ⟨(s.memory.connect (before h u) x).connect x (after v h),
      Function.update s.lists h (some (u ++ [x] ++ v))⟩ :=
  hrep.splice hl (path_singleton x) rfl rfl (List.nodup_singleton x)
    fun z hz => by rwa [List.mem_singleton.mp hz]

omit [DecidableEq α] in
/-- The place behind a member of a list. -/
theorem split_after (hplace : x ∈ h :: l) : ∃ u v, l = u ++ v ∧ before h u = x := by
  rcases List.mem_cons.mp hplace with rfl | hmem
  · exact ⟨[], l, rfl, rfl⟩
  · obtain ⟨u, v, rfl⟩ := List.append_of_mem hmem
    exact ⟨u ++ [x], v, by rw [List.append_assoc, List.singleton_append], before_concat h u x⟩

/-- An element is put behind its place in the ring. -/
theorem insertAfter_eq (item : α) (hnodup : (h :: (u ++ v)).Nodup) :
    insertAfter (before h u) item (h :: (u ++ v)) = h :: (u ++ [item] ++ v) := by
  induction u generalizing h with
  | nil =>
    rw [insertAfter, before_nil, if_pos rfl]
    rfl
  | cons y u ih =>
    obtain ⟨hnotin, hnodup⟩ := List.nodup_cons.mp hnodup
    have hbefore : before h (y :: u) = before y u := by
      rw [before, List.getLast?_cons, Option.getD_some, before]
    have hne : h ≠ before y u := by
      intro heq
      rw [heq] at hnotin
      exact hnotin (List.mem_append_left v (before_mem y u))
    rw [hbefore, insertAfter, if_neg hne, List.cons_append, ih hnodup]
    rfl

/-- `DulinkAdd` puts a node behind its place. -/
theorem Represents.add (hrep : Represents s) {item place : α} (hd : Detached s.lists item)
    (hl : s.lists h = some l) (hplace : place ∈ h :: l) :
    Represents ⟨dulinkAdd s.memory item place,
      modify s.lists h fun l => (insertAfter place item (h :: l)).tail⟩ := by
  have hne : place ≠ item := fun heq => hd.notMem hl (heq ▸ hplace)
  obtain ⟨u, v, rfl, rfl⟩ := split_after hplace
  rw [dulinkAdd_eq s.memory hne, next_before (hrep.ring h _ hl), modify_eq hl,
    insertAfter_eq item (hrep.nodup h _ hl), List.tail_cons]
  exact hrep.insert hl hd

/-- `DulinkPushtail` puts a node at the end of the list, in front of the head. -/
theorem Represents.pushtail (hrep : Represents s) (hd : Detached s.lists x)
    (hl : s.lists h = some l) :
    Represents ⟨dulinkPushtail s.memory h x, modify s.lists h fun l => l ++ [x]⟩ := by
  have hsplit : s.lists h = some (l ++ []) := by rw [List.append_nil, hl]
  have hins := hrep.insert hsplit hd
  rw [List.append_nil, after_nil] at hins
  rw [dulinkPushtail_eq, prev_head (hrep.ring h l hl), modify_eq hl]
  exact hins

/-- `DulinkPushHead` puts a node at the start. -/
theorem Represents.pushHead (hrep : Represents s) (hd : Detached s.lists x)
    (hl : s.lists h = some l) :
    Represents ⟨dulinkPushHead s.memory h x, modify s.lists h fun l => x :: l⟩ := by
  have hne : h ≠ x := fun heq => hd.notMem hl (heq ▸ List.mem_cons_self)
  rw [dulinkPushHead_eq, dulinkAdd_eq s.memory hne, next_head (hrep.ring h l hl), modify_eq hl]
  exact hrep.insert (u := []) hl hd

/-- An element leaves a list. -/
theorem Represents.remove (hrep : Represents s) (hl : s.lists h = some (u ++ [x] ++ v)) :
    Represents ⟨dulinkRemove s.memory x, Function.update s.lists h (some (u ++ v))⟩ := by
  have hring := hrep.ring h _ hl
  have hnext : s.memory.next x = after v h := by
    have := next_before hring
    rwa [before_concat] at this
  have hprev : s.memory.prev x = before h u := by
    rw [List.append_assoc, List.singleton_append] at hring
    have := prev_after hring
    rwa [after_cons] at this
  rw [dulinkRemove_eq, hnext, hprev]
  exact (hrep.unlink hl).1

/-- `DulinkInsertHead` puts a chain of nodes at the start. -/
theorem Represents.insertHead (hrep : Represents s) {beg last : α} {chain : List α}
    (hdetached : ∀ z ∈ chain, Detached s.lists z) (hnodup : chain.Nodup)
    (hpath : Path s.memory chain) (hbeg : chain.head? = some beg)
    (hlast : chain.getLast? = some last) (hl : s.lists h = some l) :
    Represents ⟨dulinkInsertHead s.memory h beg last, modify s.lists h fun l => chain ++ l⟩ := by
  have hnext := next_head (hrep.ring h l hl)
  have hlast_ne : last ≠ h := fun heq =>
    (hdetached last (List.mem_of_getLast? hlast)).notMem hl (heq ▸ List.mem_cons_self)
  have hbeg_ne : s.memory.next h ≠ beg := by
    intro heq
    refine (hdetached beg (List.mem_of_head? hbeg)).notMem hl ?_
    rw [← heq, hnext]
    exact after_mem_append h [] l
  rw [dulinkInsertHead_eq s.memory hlast_ne hbeg_ne, hnext, modify_eq hl]
  exact hrep.splice (u := []) hl hpath hbeg hlast hnodup hdetached

omit [DecidableEq α] in
/-- The segment that `DulinkMove` takes off the front of a list. -/
theorem Represents.moveOut (hrep : Represents s) (hl : s.lists h = some l) {count : Int32}
    (hcount : CountOk count l.length) (hfits : IndexFits count) :
    ∃ beg last, s.memory.next h = beg ∧ moveEnd s.memory h count = last ∧
      (l.take (moveCount count l.length)).head? = some beg ∧
      (l.take (moveCount count l.length)).getLast? = some last ∧
      s.memory.next last = after (l.drop (moveCount count l.length)) h := by
  obtain ⟨hpos, hle⟩ := hcount.moveCount_pos
  have hring := hrep.ring h l hl
  have hend := moveEnd_eq hring hcount hfits
  generalize moveCount count l.length = k at *
  have hnext : s.memory.next (before h (l.take k)) = after (l.drop k) h := by
    refine next_before ?_
    rw [List.take_append_drop]
    exact hring
  obtain ⟨x, l, rfl⟩ := List.exists_cons_of_length_pos (Nat.lt_of_lt_of_le hpos hle)
  obtain ⟨k, rfl⟩ := Nat.exists_eq_succ_of_ne_zero (Nat.ne_of_gt hpos)
  refine ⟨x, _, next_head hring, hend, ?_, ?_, hnext⟩
  · rw [List.take_succ_cons, List.head?_cons]
  · rw [List.take_succ_cons, before, List.getLast?_cons, Option.getD_some]

/-- **A move**: a segment leaves the front of one list and comes to the front of another. -/
theorem Represents.move (hrep : Represents s) {toHead : α} {l' : List α} (hne : toHead ≠ h)
    (hto : s.lists toHead = some l') (hl : s.lists h = some l) {count : Int32}
    (hcount : CountOk count l.length) (hfits : IndexFits count) :
    Represents ⟨dulinkMove s.memory toHead h count,
      Action.model s.lists (.move toHead h count)⟩ := by
  obtain ⟨beg, last, hnext, hend, hbeg, hlast, hafter⟩ := hrep.moveOut hl hcount hfits
  have hmodel : Action.model s.lists (.move toHead h count) =
      modify (Function.update s.lists h (some (l.drop (moveCount count l.length)))) toHead
        fun l' => l.take (moveCount count l.length) ++ l' := by
    rw [Action.model, modify_eq hl, hl]
    rfl
  rw [hmodel, dulinkMove_eq, hend, hafter, hnext]
  generalize moveCount count l.length = k at *
  have hsplit : s.lists h = some ([] ++ l.take k ++ l.drop k) := by
    rw [List.nil_append, List.take_append_drop, hl]
  -- the segment is a path of detached nodes now, as `DulinkInsertHead` takes it
  obtain ⟨hrep', hpath, hdetached⟩ := hrep.unlink hsplit
  have hnodup : (l.take k).Nodup :=
    (List.nodup_cons.mp (hrep.nodup h l hl)).2.sublist (List.take_sublist k l)
  refine hrep'.insertHead hdetached hnodup hpath hbeg hlast (l := l') ?_
  show Function.update s.lists h _ toHead = some l'
  rw [Function.update_of_ne hne, hto]

/-- A caller's write to a node that no list has. -/
theorem Represents.write (hrep : Represents s) (hd : Detached s.lists x) (next prev : α) :
    Represents ⟨dulinkSetPrev (dulinkSetNext s.memory x next) x prev, s.lists⟩ := by
  refine ⟨?_, hrep.nodup, hrep.disjoint⟩
  intro h l hl
  have hx := hd.notMem hl
  refine Path.congr (hrep.ring h l hl) ?_ ?_
  · intro y hy
    rw [← List.cons_append, List.dropLast_concat] at hy
    exact Function.update_of_ne (ne_of_mem_of_not_mem hy hx) _ _
  · intro y hy
    rw [List.tail_cons, List.mem_append, List.mem_singleton] at hy
    have hy' : y ∈ h :: l := by
      rcases hy with hy | rfl
      · exact List.mem_cons_of_mem h hy
      · exact List.mem_cons_self
    exact Function.update_of_ne (ne_of_mem_of_not_mem hy' hx) _ _

/-- **One operation.**  One case for each operation, as an unlink, a splice, or both. -/
theorem Represents.step (hrep : Represents s) {a : Action α} (ha : a.Allowed s)
    (hfits : a.IndexFits) : Represents ⟨a.exec s.memory, a.model s.lists⟩ := by
  cases a with
  | init dulink => exact hrep.init ha
  | add item place list =>
    obtain ⟨hd, l, hl, hplace⟩ := ha
    exact hrep.add hd hl hplace
  | remove item list =>
    obtain ⟨l, hl, hmem⟩ := ha
    have hnodup := (List.nodup_cons.mp (hrep.nodup list l hl)).2
    obtain ⟨u, v, rfl⟩ := List.append_of_mem hmem
    have herase : (u ++ item :: v).erase item = u ++ v := by
      have hnotin : item ∉ u := fun hu =>
        (List.nodup_append'.mp hnodup).2.2 hu List.mem_cons_self
      rw [List.erase_append_right _ hnotin, List.erase_cons_head]
    rw [Action.exec, Action.model, modify_eq hl, herase]
    refine hrep.remove ?_
    rw [List.append_assoc, List.singleton_append, hl]
  | pushtail dulink node =>
    obtain ⟨hd, l, hl⟩ := ha
    exact hrep.pushtail hd hl
  | pushHead dulink node =>
    obtain ⟨hd, l, hl⟩ := ha
    exact hrep.pushHead hd hl
  | popTail dulink =>
    obtain ⟨l, hl, hne⟩ := ha
    -- the last element is the one before the head
    obtain ⟨u, x, rfl⟩ := (List.eq_nil_or_concat l).resolve_left hne
    rw [List.concat_eq_append] at hl
    have hprev := prev_head (hrep.ring dulink _ hl)
    rw [before_concat] at hprev
    rw [Action.exec, Action.model, modify_eq hl, dulinkPopTail_eq, hprev, List.dropLast_concat]
    have hrem := hrep.remove (v := []) (by rw [List.append_nil]; exact hl)
    rw [List.append_nil] at hrem
    exact hrem
  | popHead dulink =>
    obtain ⟨l, hl, hne⟩ := ha
    obtain ⟨x, l, rfl⟩ := List.exists_cons_of_ne_nil hne
    have hnext := next_head (hrep.ring dulink _ hl)
    rw [after_cons] at hnext
    rw [Action.exec, Action.model, modify_eq hl, dulinkPopHead_eq, hnext, List.tail_cons]
    exact hrep.remove (u := []) hl
  | insertHead head beg last chain =>
    obtain ⟨hdetached, hnodup, hpath, hbeg, hlast, l, hl⟩ := ha
    exact hrep.insertHead hdetached hnodup hpath hbeg hlast hl
  | move toHead fromHead count =>
    obtain ⟨hne, ⟨l', hto⟩, l, hl, hcount⟩ := ha
    exact hrep.move hne hto hl hcount hfits
  | write node next prev => exact hrep.write ha next prev

end Operations

/-! ## Every run -/

/-- At first there are no lists, and all links are as they were. -/
theorem represents_init {s : State α} (h : (machine α).init s) : Represents s := by
  have hnone : ∀ h l, s.lists h ≠ some l := by
    intro h' l hl
    rw [h h'] at hl
    exact absurd hl nofun
  exact ⟨fun h l hl => absurd hl (hnone h l), fun h l hl => absurd hl (hnone h l),
    fun h l _ _ _ hl => absurd hl (hnone h l)⟩

/-- The first `k` elements go, in order, from one sequence to the front of another; no other
    sequence changes, and no element gets lost or comes twice. -/
def MovesFront (lists lists' : α → Option (List α)) (toHead fromHead : α) (k : Nat) : Prop :=
  ∀ l l', lists fromHead = some l → lists toHead = some l' →
    lists' fromHead = some (l.drop k) ∧ lists' toHead = some (l.take k ++ l') ∧
    (∀ h, h ≠ fromHead → h ≠ toHead → lists' h = lists h) ∧
    ((l.take k ++ l') ++ l.drop k).Perm (l' ++ l)

/-- The model of `DulinkMove` takes the nodes off the front of one list and puts them in front of
    the other. -/
theorem model_move {lists : α → Option (List α)} {toHead fromHead : α} {l : List α}
    (hne : toHead ≠ fromHead) (hl : lists fromHead = some l) (count : Int32) :
    MovesFront lists (Action.model lists (.move toHead fromHead count)) toHead fromHead
      (moveCount count l.length) := by
  intro l₁ l' hl₁ hl'
  obtain rfl := Option.some.inj (hl₁.symm.trans hl)
  have hto : modify lists fromHead (fun l => l.drop (moveCount count l.length)) toHead =
      some l' := by
    rw [modify, Function.update_of_ne hne, hl']
  refine ⟨?_, ?_, ?_, ?_⟩
  · rw [Action.model, modify, Function.update_of_ne hne.symm]
    exact modify_self hl
  · rw [Action.model, modify_self hto, hl]
    rfl
  · intro h hfrom hto
    rw [Action.model, modify, Function.update_of_ne hto, modify, Function.update_of_ne hfrom]
  · generalize moveCount count l₁.length = k
    have hswap : (l₁.take k ++ l').Perm (l' ++ l₁.take k) := List.perm_append_comm
    have hperm := hswap.append_right (l₁.drop k)
    rw [List.append_assoc l', List.take_append_drop] at hperm
    exact hperm

/-- The links represent the lists in every run whose indices fit. -/
theorem lists_invariant (α : Type) [DecidableEq α] :
    ((machine α).guarded fun _ a => a.IndexFits).Invariant Represents where
  init := fun s h => represents_init h
  step := by
    rintro s a s' hrep ⟨hfits, ha, rfl⟩
    exact hrep.step ha hfits

/-- **Refinement.**  After any operations, in any order, the memory holds the sequences; a move takes
    exactly the elements it is told to, and `DulinkIsEmpty` tells of every list if it has any. -/
theorem lists_refine {s : State α}
    (h : ((machine α).guarded fun _ a => a.IndexFits).Reachable s) :
    Represents s ∧
    (∀ toHead fromHead l count, toHead ≠ fromHead → s.lists fromHead = some l →
      MovesFront s.lists (Action.model s.lists (.move toHead fromHead count)) toHead fromHead
        (moveCount count l.length)) ∧
    ∀ dulink l, s.lists dulink = some l → (dulinkIsEmpty s.memory dulink = true ↔ l = []) := by
  have hrep := (lists_invariant α).reachable h
  refine ⟨hrep, fun _ _ _ count hne hl => model_move hne hl count, fun dulink l hl => ?_⟩
  exact dulinkIsEmpty_iff (hrep.ring dulink l hl) (List.nodup_cons.mp (hrep.nodup dulink l hl)).1

end Machine

/-! ## Runs -/

section Samples

/-- A step of a run on the numbers, with its operation. -/
theorem reach {s : State Nat} (h : ((machine Nat).guarded fun _ a => a.IndexFits).Reachable s)
    (a : Action Nat) (hfits : a.IndexFits) (ha : a.Allowed s) :
    ((machine Nat).guarded fun _ a => a.IndexFits).Reachable
      ⟨a.exec s.memory, a.model s.lists⟩ := h.step (e := a) ⟨hfits, ha, rfl⟩

/-- The next node to be pushed is not in the list yet. -/
theorem notMem_pushed {lists : Nat → Option (List Nat)} {n : Nat}
    (hl : lists 0 = some (List.range' 1 n)) (hnone : ∀ x, x ≠ 0 → lists x = none) :
    ∀ h l, lists h = some l → n + 1 ∉ l := by
  intro h l hl' hmem
  by_cases hh : h = 0
  · rw [hh, hl] at hl'
    rw [← Option.some.inj hl', List.mem_range'_1] at hmem
    omega
  · rw [hnone h hh] at hl'
    exact absurd hl' nofun

/-- A list with head 0 and any number of elements. -/
theorem reach_pushed (n : Nat) : ∃ s : State Nat,
    ((machine Nat).guarded fun _ a => a.IndexFits).Reachable s ∧
    s.lists 0 = some (List.range' 1 n) ∧ ∀ x, x ≠ 0 → s.lists x = none := by
  induction n with
  | zero =>
    have h₀ : ((machine Nat).guarded fun _ a => a.IndexFits).Reachable
        ⟨⟨id, id⟩, fun _ => none⟩ := .init fun _ => rfl
    refine ⟨_, reach h₀ (.init 0) trivial (fun h l hl => absurd hl nofun), rfl, ?_⟩
    intro x hx
    exact Function.update_of_ne hx _ _
  | succ n ih =>
    obtain ⟨s, hs, hl, hnone⟩ := ih
    have hd : Detached s.lists (n + 1) :=
      ⟨hnone _ (Nat.succ_ne_zero n), notMem_pushed hl hnone⟩
    refine ⟨_, reach hs (.pushtail 0 (n + 1)) trivial ⟨hd, _, hl⟩, ?_, ?_⟩
    · rw [List.range'_1_concat, Nat.add_comm 1 n]
      exact modify_self hl
    · intro x hx
      show modify s.lists 0 _ x = none
      rw [modify, Function.update_of_ne hx, hnone x hx]

/-- And a second one, without elements. -/
theorem reach_two (n : Nat) : ∃ s : State Nat,
    ((machine Nat).guarded fun _ a => a.IndexFits).Reachable s ∧
    s.lists 0 = some (List.range' 1 n) ∧ s.lists (n + 1) = some [] := by
  obtain ⟨s, hs, hl, hnone⟩ := reach_pushed n
  have hfresh : (.init (n + 1) : Action Nat).Allowed s := notMem_pushed hl hnone
  refine ⟨_, reach hs (.init (n + 1)) trivial hfresh, ?_, ?_⟩
  · show Function.update s.lists (n + 1) (some []) 0 = some (List.range' 1 n)
    rw [Function.update_of_ne (Nat.succ_ne_zero n).symm, hl]
  · show Function.update s.lists (n + 1) (some []) (n + 1) = some []
    exact Function.update_self _ _ _

/-- Three elements, of which the first two are moved to the front of an empty list: the reserve is
    one. -/
theorem lists_refine_moved : ∃ s : State Nat,
    ((machine Nat).guarded fun _ a => a.IndexFits).Reachable s ∧
    s.lists 0 = some [3] ∧ s.lists 4 = some [1, 2] ∧
    Represents s ∧
    (∀ toHead fromHead l count, toHead ≠ fromHead → s.lists fromHead = some l →
      MovesFront s.lists (Action.model s.lists (.move toHead fromHead count)) toHead fromHead
        (moveCount count l.length)) ∧
    ∀ dulink l, s.lists dulink = some l → (dulinkIsEmpty s.memory dulink = true ↔ l = []) := by
  obtain ⟨s, hs, hl, hto⟩ := reach_two 3
  have hmove : (.move 4 0 (-1) : Action Nat).Allowed s :=
    ⟨by decide, ⟨_, hto⟩, _, hl, by decide⟩
  have hfits : (.move 4 0 (-1) : Action Nat).IndexFits := show IndexFits (-1) by decide
  have hs' := reach hs (.move 4 0 (-1)) hfits hmove
  obtain ⟨hfrom, hto', -⟩ := model_move (by decide : (4 : Nat) ≠ 0) hl (-1) _ _ hl hto
  exact ⟨_, hs', hfrom, hto', lists_refine hs'⟩

/-- A run whose indices fit is a run. -/
theorem reachable_of_guarded {s : State Nat}
    (h : ((machine Nat).guarded fun _ a => a.IndexFits).Reachable s) :
    (machine Nat).Reachable s := by
  induction h with
  | init h => exact .init h
  | step _ hs ih => exact ih.step hs.2

/-- The last node of the chain is linked to the node that was the first. -/
theorem next_insertHead_last (m : Links Nat) {head beg last : Nat} (hne : head ≠ last) :
    (dulinkInsertHead m head beg last).next last = m.next head := by
  show Function.update (Function.update m.next last (m.next head)) head beg last = m.next head
  rw [Function.update_of_ne hne.symm, Function.update_self]

/-- With a reserve of `2 ^ 31 - 1` the index of the walk back is no 32-bit integer: it wraps to a
    negative one, the walk makes no step, and the head itself is spliced into the other list. -/
theorem dulinkMove_wraps {s : State Nat} (hrep : Represents s) {toHead fromHead : Nat}
    (hne : toHead ≠ fromHead) (hto : s.lists toHead = some []) :
    (dulinkMove s.memory toHead fromHead (-2147483647)).next fromHead = toHead := by
  have hend : moveEnd s.memory fromHead (-2147483647) = fromHead := rfl
  have hnext : s.memory.next toHead = toHead := next_head (hrep.ring toHead _ hto)
  rw [dulinkMove_eq, hend, next_insertHead_last _ hne]
  show Function.update s.memory.next fromHead _ toHead = toHead
  rw [Function.update_of_ne hne, hnext]

/-- A list of `2 ^ 31` elements, and a move that is to reserve all but the first. -/
theorem move_corrupts : ¬ ∀ s : State Nat, (machine Nat).Reachable s → Represents s := by
  intro hclaim
  obtain ⟨n, hn⟩ : ∃ n, n + 2 = 2 ^ 31 := ⟨2 ^ 31 - 2, by decide⟩
  obtain ⟨s, hs, hl, hto⟩ := reach_two (n + 2)
  have hlength : (List.range' 1 (n + 2)).length = n + 2 := List.length_range'
  have hcons : List.range' 1 (n + 2) = 1 :: 2 :: List.range' 3 n := by
    rw [List.range'_succ, List.range'_succ]
  have hne : n + 2 + 1 ≠ 0 := Nat.succ_ne_zero _
  have hcount : CountOk (-2147483647) (List.range' 1 (n + 2)).length := by
    rw [hlength, hn]
    decide
  have hallowed : (.move (n + 2 + 1) 0 (-2147483647) : Action Nat).Allowed s :=
    ⟨hne, ⟨_, hto⟩, _, hl, hcount⟩
  have hs' := (reachable_of_guarded hs).step (e := .move (n + 2 + 1) 0 (-2147483647))
    ⟨hallowed, rfl⟩
  -- the list of 0 should go on with its second element
  obtain ⟨hfrom, -⟩ := model_move hne hl (-2147483647) _ _ hl hto
  have hk : moveCount (-2147483647) (List.range' 1 (n + 2)).length = 1 := by
    rw [hlength, hn]
    decide
  rw [hk, hcons] at hfrom
  have hnext := next_head ((hclaim _ hs').ring 0 _ hfrom)
  have hwraps := dulinkMove_wraps ((lists_invariant Nat).reachable hs) hne hto
  have : 2 = n + 2 + 1 := hnext.symm.trans hwraps
  omega

end Samples

end Dulink

end CangjieRuntime.Sched
