/-
  The scheduler's open lists (`Link` in `rt.sched/List.cj`).

  A chain is a head node and its elements, linked in both directions up to a null at either end; the
  operations write two or three links and check nothing but nulls.  The state is the memory and the
  sequence of every chain by its head, as for the rings of `Dulink`; after any operations every
  chain is the segment of its sequence (`links_refine`), so that an element can be taken out of a
  chain without its head.
-/
import CangjieRuntime.Lib.Linked
import CangjieRuntime.Sched.ListRuns

set_option linter.unusedVariables false

namespace CangjieRuntime.Sched.Link

open Linked Runs Dulink

/-! ## The operations -/

/-- The links of all nodes.  A null link is `none`; a node that is in no chain has links as well,
    and nothing is said of them. -/
structure Memory (α : Type) where
  next : α → Option α
  prev : α → Option α

section Writes

variable {α : Type} [DecidableEq α]

/-- `LinkSetPrev`: a write of one link, which may be null. -/
def linkSetPrev (m : Memory α) (node : α) (value : Option α) : Memory α :=
  { m with prev := Function.update m.prev node value }

/-- `LinkSetNext`: a write of the other. -/
def linkSetNext (m : Memory α) (node : α) (value : Option α) : Memory α :=
  { m with next := Function.update m.next node value }

/-- `LinkInit`: both links are null. -/
def linkInit (m : Memory α) (link : α) : Memory α :=
  let m := linkSetNext m link none
  linkSetPrev m link none

/-- `LinkRemove`: the neighbours that are there are linked to each other. -/
def linkRemove (m : Memory α) (item : α) : Memory α :=
  let prev := m.prev item
  let next := m.next item
  let m := prev.elim m fun prev => linkSetNext m prev next
  next.elim m fun next => linkSetPrev m next prev

/-- `LinkPushHead`: the node comes behind the head. -/
def linkPushHead (m : Memory α) (link node : α) : Memory α :=
  let m := linkSetNext m node (m.next link)
  let m := linkSetPrev m node (some link)
  let m := linkSetNext m link (some node)
  (m.next node).elim m fun next => linkSetPrev m next (some node)

/-- `LinkPushTail`, with the last node of the chain. -/
def linkPushTail (m : Memory α) (linkTail node : α) : Memory α :=
  let m := linkSetNext m node none
  let m := linkSetNext m linkTail (some node)
  linkSetPrev m node (some linkTail)

/-- `LinkIsEmpty`: both links are null. -/
def linkIsEmpty (m : Memory α) (link : α) : Bool := m.next link = none ∧ m.prev link = none

/-! ## Their links -/

/-- A removal changes the next link of the node before, if there is one. -/
theorem linkRemove_next (m : Memory α) (item b : α) :
    (linkRemove m item).next b = if m.prev item = some b then m.next item else m.next b := by
  rw [linkRemove]
  cases m.prev item with
  | none => cases m.next item <;> rfl
  | some p =>
    cases m.next item with
    | none => simp [linkSetNext, Function.update_apply, eq_comm]
    | some n => simp [linkSetNext, linkSetPrev, Function.update_apply, eq_comm]

/-- It changes the other link of the node behind. -/
theorem linkRemove_prev (m : Memory α) (item b : α) :
    (linkRemove m item).prev b = if m.next item = some b then m.prev item else m.prev b := by
  rw [linkRemove]
  cases m.next item with
  | none => cases m.prev item <;> rfl
  | some n =>
    cases m.prev item with
    | none => simp [linkSetPrev, Function.update_apply, eq_comm]
    | some p => simp [linkSetNext, linkSetPrev, Function.update_apply, eq_comm]

variable {m : Memory α} {link node : α}

/-- The node's own link is read back after it was written. -/
theorem linkPushHead_eq (hne : node ≠ link) : linkPushHead m link node =
    (m.next link).elim
      (linkSetNext (linkSetPrev (linkSetNext m node (m.next link)) node (some link)) link
        (some node))
      fun next => linkSetPrev (linkSetNext (linkSetPrev (linkSetNext m node (m.next link)) node
        (some link)) link (some node)) next (some node) := by
  have hread : Function.update (Function.update m.next node (m.next link)) link (some node) node =
      m.next link := by
    rw [Function.update_of_ne hne, Function.update_self]
  rw [linkPushHead]
  simp only [linkSetNext, linkSetPrev, hread]

/-- A push changes the next links of the head and of the new node. -/
theorem linkPushHead_next (hne : node ≠ link) (b : α) : (linkPushHead m link node).next b =
    if b = link then some node else if b = node then m.next link else m.next b := by
  rw [linkPushHead_eq hne]
  cases m.next link with
  | none => simp [linkSetNext, linkSetPrev, Function.update_apply]
  | some n => simp [linkSetNext, linkSetPrev, Function.update_apply]

/-- It changes the other links of the new node and of the node behind it. -/
theorem linkPushHead_prev (hne : node ≠ link) (b : α) : (linkPushHead m link node).prev b =
    if m.next link = some b then some node else if b = node then some link else m.prev b := by
  rw [linkPushHead_eq hne]
  cases m.next link with
  | none => simp [linkSetNext, linkSetPrev, Function.update_apply]
  | some n => simp [linkSetNext, linkSetPrev, Function.update_apply, eq_comm]

end Writes

/-! ## The machine -/

/-- The links of all nodes, and the sequence of every chain by its head. -/
structure State (α : Type) where
  memory : Memory α
  chains : α → Option (List α)

/-- The operations, by callers that know the chain an item is in and the last node of a chain; and a
    caller's own write to a node that no chain has.  `LinkInit` makes a node the head of an empty
    chain (`init`); of a node that becomes an element it is the write of two null links. -/
inductive Action (α : Type)
  | init (link : α)
  | remove (item chain : α)
  | pushHead (link node : α)
  | pushTail (linkTail node chain : α)
  | write (node : α) (next prev : Option α)

section Machine

variable {α : Type} [DecidableEq α]

/-- What the source does to the memory. -/
def Action.exec (m : Memory α) : Action α → Memory α
  | .init link => linkInit m link
  | .remove item _ => linkRemove m item
  | .pushHead link node => linkPushHead m link node
  | .pushTail linkTail node _ => linkPushTail m linkTail node
  | .write node next prev => linkSetPrev (linkSetNext m node next) node prev

/-- What the operation does to the sequences. -/
def Action.model (chains : α → Option (List α)) : Action α → α → Option (List α)
  | .init link => Function.update chains link (some [])
  | .remove item chain => modify chains chain fun l => l.erase item
  | .pushHead link node => modify chains link fun l => node :: l
  | .pushTail _ node chain => modify chains chain fun l => l ++ [node]
  | .write _ _ _ => chains

/-- What an operation may be called on. -/
def Action.Allowed (s : State α) : Action α → Prop
  | .init link => ∀ h l, s.chains h = some l → link ∉ l
  | .remove item chain => ∃ l, s.chains chain = some l ∧ item ∈ l
  | .pushHead link node => Detached s.chains node ∧ ∃ l, s.chains link = some l
  | .pushTail linkTail node chain => Detached s.chains node ∧
    ∃ l, s.chains chain = some l ∧ (chain :: l).getLast? = some linkTail
  | .write node _ _ => Detached s.chains node

/-- No chains at first, and then any operations. -/
def machine (α : Type) [DecidableEq α] : System (State α) (Action α) where
  init s := ∀ h, s.chains h = none
  step s a s' := a.Allowed s ∧ s' = ⟨a.exec s.memory, a.model s.chains⟩

/-- A chain is linked from its head to its end, with a null at either end. -/
def Chain (m : Memory α) (h : α) (l : List α) : Prop := Seg m.next m.prev none (h :: l) none

/-- The memory holds the sequences: every chain has different nodes, and no two chains have a common
    node. -/
structure Represents (s : State α) : Prop where
  chain : ∀ h l, s.chains h = some l → Chain s.memory h l
  nodup : ∀ h l, s.chains h = some l → (h :: l).Nodup
  disjoint : ∀ h l h' l', h ≠ h' → s.chains h = some l → s.chains h' = some l' →
    (h :: l).Disjoint (h' :: l')

/-! ## One chain changes -/

section Changes

variable {s : State α} {h x : α} {l l' u v : List α} {m : Memory α}

omit [DecidableEq α] in
/-- A node in no chain is in none of its lists. -/
theorem notMem_of_detached (hd : Detached s.chains x) (hl : s.chains h = some l) : x ∉ h :: l := by
  intro hmem
  rcases List.mem_cons.mp hmem with rfl | hmem
  · rw [hd.1] at hl
    cases hl
  · exact hd.2 h l hl hmem

omit [DecidableEq α] in
/-- So it is apart from every chain. -/
theorem apart_of_detached (hd : Detached s.chains x) (h : α) : Apart s.chains h x :=
  fun _ _ _ hl => notMem_of_detached hd hl

omit [DecidableEq α] in
/-- A node of one chain is in no other chain. -/
theorem Represents.apart (hrep : Represents s) (hl : s.chains h = some l) (hx : x ∈ h :: l) :
    Apart s.chains h x := fun h' l' hne hl' hx' =>
  hrep.disjoint h l h' l' hne.symm hl hl' hx hx'

/-- Only links of nodes that no other chain has are written. -/
theorem Represents.change (hrep : Represents s) (hchain : Chain m h l') (hnodup : (h :: l').Nodup)
    (hapart : ∀ b ∈ h :: l', Apart s.chains h b)
    (hframe : ∀ b, ¬ Apart s.chains h b →
      m.next b = s.memory.next b ∧ m.prev b = s.memory.prev b) :
    Represents ⟨m, Function.update s.chains h (some l')⟩ := by
  have hchains : ∀ h' l, Function.update s.chains h (some l') h' = some l →
      (h' = h ∧ l = l') ∨ (h' ≠ h ∧ s.chains h' = some l) := by
    intro h' l hl
    by_cases heq : h' = h
    · subst heq
      rw [Function.update_self] at hl
      exact Or.inl ⟨rfl, (Option.some.inj hl).symm⟩
    · rw [Function.update_of_ne heq] at hl
      exact Or.inr ⟨heq, hl⟩
  constructor
  · intro h₁ l₁ hl₁
    rcases hchains h₁ l₁ hl₁ with ⟨rfl, rfl⟩ | ⟨hne, hl₁⟩
    · exact hchain
    · exact (hrep.chain h₁ l₁ hl₁).congr fun b hb => hframe b fun hb' => hb' h₁ l₁ hne hl₁ hb
  · intro h₁ l₁ hl₁
    rcases hchains h₁ l₁ hl₁ with ⟨rfl, rfl⟩ | ⟨hne, hl₁⟩
    · exact hnodup
    · exact hrep.nodup h₁ l₁ hl₁
  · intro h₁ l₁ h₂ l₂ hne hl₁ hl₂
    rcases hchains h₁ l₁ hl₁ with ⟨rfl, rfl⟩ | ⟨hne₁, hold₁⟩
    · rcases hchains h₂ l₂ hl₂ with ⟨rfl, -⟩ | ⟨hne₂, hold₂⟩
      · exact absurd rfl hne
      · exact fun b hb hb' => hapart b hb h₂ l₂ hne₂ hold₂ hb'
    · rcases hchains h₂ l₂ hl₂ with ⟨rfl, rfl⟩ | ⟨hne₂, hold₂⟩
      · exact fun b hb hb' => hapart b hb' h₁ l₁ hne₁ hold₁ hb
      · exact hrep.disjoint h₁ l₁ h₂ l₂ hne hold₁ hold₂

/-! ## The operations keep it so -/

/-- A node that is in no chain becomes the head of an empty one. -/
theorem Represents.init (hrep : Represents s) (hnotin : ∀ h l, s.chains h = some l → x ∉ l) :
    Represents ⟨linkInit s.memory x, Function.update s.chains x (some [])⟩ := by
  have hx : Apart s.chains x x := by
    intro h' l hne hl hmem
    rcases List.mem_cons.mp hmem with rfl | hmem
    · exact hne rfl
    · exact hnotin h' l hl hmem
  have hchain : Chain (linkInit s.memory x) x [] := by
    simp [Chain, Seg, linkInit, linkSetNext, linkSetPrev]
  refine hrep.change hchain (List.nodup_singleton x)
    (fun b hb => by rwa [List.mem_singleton.mp hb]) fun b hb => ?_
  have hne : b ≠ x := fun hbx => hb (hbx ▸ hx)
  exact ⟨Function.update_of_ne hne _ _, Function.update_of_ne hne _ _⟩

/-- `LinkPushHead` puts a node at the start of a chain. -/
theorem Represents.pushHead (hrep : Represents s) (hl : s.chains h = some l)
    (hd : Detached s.chains x) :
    Represents ⟨linkPushHead s.memory h x, Function.update s.chains h (some (x :: l))⟩ := by
  have hnotin := notMem_of_detached hd hl
  have hne : x ≠ h := fun hxh => hnotin (hxh ▸ List.mem_cons_self)
  have hnodup := hrep.nodup h l hl
  obtain ⟨hprev, hnext, hrest⟩ := hrep.chain h l hl
  rw [Option.or_none] at hnext
  have hhead : ∀ b ∈ h :: l, b ≠ x := fun b hb hbx => hnotin (hbx ▸ hb)
  refine hrep.change ⟨?_, ?_, ?_, ?_, ?_⟩ ?_ (fun b hb => ?_) fun b hb => ?_
  · -- the head keeps its null
    rw [linkPushHead_prev hne, if_neg, if_neg hne.symm, hprev]
    rw [hnext]
    exact fun hc => (List.nodup_cons.mp hnodup).1 (List.mem_of_head? hc)
  · rw [linkPushHead_next hne, if_pos rfl]
    rfl
  · rw [linkPushHead_prev hne, if_neg, if_pos rfl]
    rw [hnext]
    exact fun hc => hnotin (List.mem_cons_of_mem h (List.mem_of_head? hc))
  · rw [linkPushHead_next hne, if_neg hne, if_pos rfl, hnext, Option.or_none]
  · -- the first element gets the node before it
    refine hrest.relinkFirst (r := some h) (s := some x) (List.nodup_cons.mp hnodup).2
      (fun a ha hc => ?_) (fun a ha => ?_) fun a ha => ?_
    · exact (List.nodup_cons.mp hnodup).1 (Option.some.inj hc ▸ ha)
    · rw [linkPushHead_next hne, if_neg (hhead a (List.mem_cons_of_mem h ha))]
      exact if_congr (by rw [Option.some.injEq, eq_comm]) rfl rfl
    · rw [linkPushHead_prev hne, hnext, if_neg (hhead a (List.mem_cons_of_mem h ha))]
  · rw [List.nodup_cons, List.mem_cons, List.nodup_cons]
    exact ⟨fun hc => hc.elim (fun hc => hne hc.symm) (List.nodup_cons.mp hnodup).1,
      fun hx => hnotin (List.mem_cons_of_mem h hx), (List.nodup_cons.mp hnodup).2⟩
  · -- the nodes of the chain are apart from the others
    rcases List.mem_cons.mp hb with hbh | hb
    · rw [hbh]
      exact hrep.apart hl List.mem_cons_self
    · rcases List.mem_cons.mp hb with hbx | hb
      · exact hbx ▸ apart_of_detached hd h
      · exact hrep.apart hl (List.mem_cons_of_mem h hb)
  · -- what is apart from the chain keeps its links
    have hbx : b ≠ x := fun hbx => hb (hbx ▸ apart_of_detached hd h)
    have hbh : b ≠ h := by
      rintro rfl
      exact hb (hrep.apart hl List.mem_cons_self)
    have hbl : s.memory.next h ≠ some b := by
      rw [hnext]
      exact fun hc => hb (hrep.apart hl (List.mem_cons_of_mem h (List.mem_of_head? hc)))
    show (linkPushHead s.memory h x).next b = _ ∧ (linkPushHead s.memory h x).prev b = _
    rw [linkPushHead_next hne, linkPushHead_prev hne, if_neg hbh, if_neg hbx, if_neg hbl,
      if_neg hbx]
    exact ⟨rfl, rfl⟩

/-- The new node is a chain by itself first, and is then joined behind the last one. -/
theorem Represents.pushTail {tail : α} (hrep : Represents s) (hl : s.chains h = some l)
    (hd : Detached s.chains x) (htail : (h :: l).getLast? = some tail) :
    Represents ⟨linkPushTail s.memory tail x, Function.update s.chains h (some (l ++ [x]))⟩ := by
  have hnotin := notMem_of_detached hd hl
  have htail_mem : tail ∈ h :: l := List.mem_of_getLast? htail
  have hne : tail ≠ x := fun htx => hnotin (htx ▸ htail_mem)
  have hmem : ∀ b ∈ h :: l, b ≠ x := fun b hb hbx => hnotin (hbx ▸ hb)
  have hnodup : (h :: l ++ [x]).Nodup :=
    List.nodup_append'.mpr ⟨hrep.nodup h l hl, List.nodup_singleton x,
      List.disjoint_singleton.mpr hnotin⟩
  have hnext : ∀ b, (linkPushTail s.memory tail x).next b =
      if tail = b then some x else if x = b then none else s.memory.next b := by
    intro b
    simp [linkPushTail, linkSetNext, linkSetPrev, Function.update_apply, eq_comm]
  have hprev : ∀ b, (linkPushTail s.memory tail x).prev b =
      if x = b then some tail else s.memory.prev b := by
    intro b
    simp [linkPushTail, linkSetNext, linkSetPrev, Function.update_apply, eq_comm]
  let m := linkInit s.memory x
  have hold : Seg m.next m.prev none (h :: l) none :=
    (hrep.chain h l hl).congr fun b hb =>
      ⟨Function.update_of_ne (hmem b hb) _ _, Function.update_of_ne (hmem b hb) _ _⟩
  have hnew : Seg m.next m.prev none [x] none := by
    simp [m, Seg, linkInit, linkSetNext, linkSetPrev]
  have hm : ∀ b, m.next b = (if x = b then none else s.memory.next b) ∧
      m.prev b = if x = b then none else s.memory.prev b := by
    intro b
    simp [m, linkInit, linkSetNext, linkSetPrev, Function.update_apply, eq_comm]
  refine hrep.change (hold.join hnew hnodup (fun b hb => ?_) fun b hb => ?_) hnodup
    (fun b hb => ?_) fun b hb => ?_
  · rw [hnext, (hm b).1, htail, List.head?_singleton]
    simp only [Option.some.injEq]
  · rw [hprev, (hm b).2, htail, List.head?_singleton]
    simp only [Option.some.injEq]
    split <;> rfl
  · rcases List.mem_append.mp (show b ∈ h :: l ++ [x] from hb) with hb | hb
    · exact hrep.apart hl hb
    · exact List.mem_singleton.mp hb ▸ apart_of_detached hd h
  · have hbx : ¬ x = b := fun hxb => hb (hxb ▸ apart_of_detached hd h)
    have hbt : ¬ tail = b := fun htb => hb (htb ▸ hrep.apart hl htail_mem)
    show (linkPushTail s.memory tail x).next b = _ ∧ (linkPushTail s.memory tail x).prev b = _
    rw [hnext, hprev, if_neg hbt, if_neg hbx, if_neg hbx]
    exact ⟨rfl, rfl⟩

/-- An element is taken out by its own links. -/
theorem Represents.remove (hrep : Represents s) (hl : s.chains h = some (u ++ x :: v)) :
    Represents ⟨linkRemove s.memory x, Function.update s.chains h (some (u ++ v))⟩ := by
  have hnodup := hrep.nodup h _ hl
  have hsub : (h :: (u ++ v)).Sublist (h :: (u ++ x :: v)) :=
    List.Sublist.cons_cons h ((List.Sublist.refl u).append (List.sublist_cons_self x v))
  have hchain : Seg s.memory.next s.memory.prev none (h :: u ++ x :: v) none :=
    hrep.chain h _ hl
  obtain ⟨hprev, hnext⟩ := hchain.neighbours
  rw [Option.or_none] at hprev hnext
  refine hrep.change (hchain.remove (hnodup.sublist hsub) (fun b hb => ?_) fun b hb => ?_)
    (hnodup.sublist hsub) (fun b hb => hrep.apart hl (hsub.subset hb)) fun b hb => ?_
  · rw [linkRemove_next, hprev, hnext]
  · rw [linkRemove_prev, hprev, hnext]
  · -- the neighbours are nodes of the chain
    have hfirst : (h :: u).getLast? ≠ some b := fun hc => hb (hrep.apart hl
      (List.mem_append_left (x :: v) (List.mem_of_getLast? hc)))
    have hsecond : v.head? ≠ some b := fun hc => hb (hrep.apart hl
      (List.mem_append_right (h :: u) (List.mem_cons_of_mem x (List.mem_of_head? hc))))
    show (linkRemove s.memory x).next b = _ ∧ (linkRemove s.memory x).prev b = _
    rw [linkRemove_next, linkRemove_prev, hprev, hnext, if_neg hfirst, if_neg hsecond]
    exact ⟨rfl, rfl⟩

/-- The links of a node that is in no chain may be anything. -/
theorem Represents.write (hrep : Represents s) (hd : Detached s.chains x) (next prev : Option α) :
    Represents ⟨linkSetPrev (linkSetNext s.memory x next) x prev, s.chains⟩ where
  chain := fun h l hl => (hrep.chain h l hl).congr fun b hb => by
    have hne : b ≠ x := fun hbx => notMem_of_detached hd hl (hbx ▸ hb)
    exact ⟨Function.update_of_ne hne _ _, Function.update_of_ne hne _ _⟩
  nodup := hrep.nodup
  disjoint := hrep.disjoint

/-- **Every operation keeps every chain.**  One case for each operation; the chains that it does not
    name are kept by `Represents.change`. -/
theorem Represents.step (hrep : Represents s) {a : Action α} (ha : a.Allowed s) :
    Represents ⟨a.exec s.memory, a.model s.chains⟩ := by
  cases a with
  | init link => exact hrep.init ha
  | remove item chain =>
    obtain ⟨l, hl, hmem⟩ := ha
    obtain ⟨u, v, rfl⟩ := List.append_of_mem hmem
    have hnotin : item ∉ u := by
      have hnodup := (List.nodup_cons.mp (hrep.nodup chain _ hl)).2
      exact fun hu => (List.nodup_append'.mp hnodup).2.2 hu List.mem_cons_self
    have herase : (u ++ item :: v).erase item = u ++ v := by
      rw [List.erase_append_right _ hnotin, List.erase_cons_head]
    rw [Action.exec, Action.model, Dulink.modify, hl, Option.map_some, herase]
    exact hrep.remove hl
  | pushHead link node =>
    obtain ⟨hd, l, hl⟩ := ha
    rw [Action.exec, Action.model, Dulink.modify, hl, Option.map_some]
    exact hrep.pushHead hl hd
  | pushTail linkTail node chain =>
    obtain ⟨hd, l, hl, htail⟩ := ha
    rw [Action.exec, Action.model, Dulink.modify, hl, Option.map_some]
    exact hrep.pushTail hl hd htail
  | write node next prev => exact hrep.write ha next prev

end Changes

/-! ## Every run -/

/-- The links represent the chains in every run. -/
theorem chains_invariant (α : Type) [DecidableEq α] : (machine α).Invariant Represents where
  init := by
    intro s h
    have hnone : ∀ h l, s.chains h ≠ some l := by
      intro h' l hl
      rw [h h'] at hl
      cases hl
    exact ⟨fun h l hl => absurd hl (hnone h l), fun h l hl => absurd hl (hnone h l),
      fun h l _ _ _ hl => absurd hl (hnone h l)⟩
  step := by
    rintro s a s' hrep ⟨ha, rfl⟩
    exact hrep.step ha

/-- **Refinement.**  After any operations, in any order, the memory holds the sequences, and
    `LinkIsEmpty` tells of every chain if it has elements.  An operation writes two or three links,
    all of them of one chain or of a node that is in none; chains share no node, and so the others
    stay the segments that they were. -/
theorem links_refine {s : State α} (h : (machine α).Reachable s) :
    Represents s ∧
      ∀ link l, s.chains link = some l → (linkIsEmpty s.memory link = true ↔ l = []) := by
  have hrep := (chains_invariant α).reachable h
  refine ⟨hrep, fun link l hl => ?_⟩
  obtain ⟨hprev, hnext, -⟩ := hrep.chain link l hl
  rw [linkIsEmpty, decide_eq_true_iff, hprev, hnext, Option.or_none, List.head?_eq_none_iff]
  exact and_iff_left rfl

end Machine

/-! ## Runs -/

section Samples

/-- A run on the numbers with one chain, at 0. -/
structure OneChain (s : State Nat) (l : List Nat) : Prop where
  reachable : (machine Nat).Reachable s
  chain : s.chains 0 = some l
  other : ∀ x, x ≠ 0 → s.chains x = none

variable {s : State Nat} {l : List Nat} {x : Nat}

/-- With one chain a node that is not in it is in none. -/
theorem OneChain.detached (h : OneChain s l) (hx : x ≠ 0) (hl : x ∉ l) : Detached s.chains x := by
  refine ⟨h.other x hx, fun h' l' hl' => ?_⟩
  by_cases hzero : h' = 0
  · rw [hzero, h.chain] at hl'
    exact Option.some.inj hl' ▸ hl
  · rw [h.other h' hzero] at hl'
    cases hl'

/-- A step that changes the chain. -/
theorem OneChain.step (h : OneChain s l) {a : Action Nat} (ha : a.Allowed s)
    {f : List Nat → List Nat} (hf : a.model s.chains = Dulink.modify s.chains 0 f) :
    OneChain ⟨a.exec s.memory, a.model s.chains⟩ (f l) where
  reachable := h.reachable.step (e := a) ⟨ha, rfl⟩
  chain := by
    show a.model s.chains 0 = some (f l)
    rw [hf, Dulink.modify, Function.update_self, h.chain, Option.map_some]
  other := fun x hx => by
    show a.model s.chains x = none
    rw [hf, Dulink.modify, Function.update_of_ne hx, h.other x hx]

/-- Two nodes are put in at the head, a third behind the last, and the first is taken out. -/
theorem links_refine_three : ∃ s : State Nat, (machine Nat).Reachable s ∧
    s.chains 0 = some [2, 3] ∧ (Represents s ∧
      ∀ link l, s.chains link = some l → (linkIsEmpty s.memory link = true ↔ l = [])) := by
  have hstart : (machine Nat).Reachable ⟨⟨fun _ => none, fun _ => none⟩, fun _ => none⟩ :=
    .init fun _ => rfl
  have h₀ : OneChain _ [] :=
    ⟨hstart.step (e := .init 0) ⟨fun h l hl => absurd hl nofun, rfl⟩, rfl,
      fun x hx => Function.update_of_ne hx _ _⟩
  have h₁ := h₀.step (a := .pushHead 0 1) (f := fun l => 1 :: l)
    ⟨h₀.detached (by decide) (by decide), _, h₀.chain⟩ rfl
  have h₂ := h₁.step (a := .pushHead 0 2) (f := fun l => 2 :: l)
    ⟨h₁.detached (by decide) (by decide), _, h₁.chain⟩ rfl
  have h₃ := h₂.step (a := .pushTail 1 3 0) (f := fun l => l ++ [3])
    ⟨h₂.detached (by decide) (by decide), _, h₂.chain, rfl⟩ rfl
  have h₄ := h₃.step (a := .remove 1 0) (f := fun l => l.erase 1) ⟨_, h₃.chain, by decide⟩ rfl
  exact ⟨_, h₄.reachable, h₄.chain, links_refine h₄.reachable⟩

end Samples

end CangjieRuntime.Sched.Link
