/-
  Whole runs over any number of mark stacks.

  The model of a stack is the sequence of its values, bottom first.  It knows nothing of buffers,
  but for one thing: what `Split` takes off is counted in buffers, so that operation of the model
  reads the blocks of values off the chain (`State.blocks`).  `reachable_sequences` says that after
  every finite sequence of operations the blocks of each stack, put together, are the model's
  sequence, that no block is empty or longer than 64, and that the only operation that can abort
  is a pop from an empty stack.
-/
import CangjieRuntime.Gc.MarkStackBuffers

set_option linter.unusedVariables false

namespace CangjieRuntime.Gc

open Runs Linked

namespace MarkStack

/-! ## The model -/

/-- At most `n` buffers, along the `next` links. -/
def chain (m : Memory) : Nat → Option Nat → List Nat
  | 0, _ => []
  | _, none => []
  | n + 1, some a => a :: chain m n (m.next a)

section Model

variable {σ : Type} [DecidableEq σ]

/-- The buffers of a stack, from its head on. -/
def State.buffers (s : State σ) (i : σ) : List Nat :=
  chain s.memory (s.stackOf i).s (s.stackOf i).h

/-- The values of a stack, buffer by buffer. -/
def State.blocks (s : State σ) (i : σ) : List (List Nat) := (s.buffers i).map s.memory.values

/-- What an operation does to the sequences, and what it returns. -/
def Op.apply (s : State σ) (m : σ → List Nat) : Op σ → (σ → List Nat) × Option Nat
  | .pushBack i value _ => (Function.update m i (m i ++ [value]), none)
  | .back i => (m, some ((m i).getLast?.getD 0))
  | .popBack i => (Function.update m i (m i).dropLast, none)
  | .insert i j => (Function.update (Function.update m j []) i (m i ++ m j), none)
  | .splitOff i j n =>
    (Function.update (Function.update m j ((s.blocks i).take n).flatten) i
      ((s.blocks i).drop n).flatten, none)
  | .moveConstruct j i => (Function.update (Function.update m j (m i)) i [], none)

/-- The precondition: the allocator hands out a free address that is not null; two stacks are two;
    a stack to construct is an empty one; a pop is from a stack that is not empty. -/
def Op.Allowed (s : State σ) (m : σ → List Nat) : Op σ → Prop
  | .pushBack _ _ fresh => s.memory.live fresh = false ∧ 0 < fresh ∧ fresh < 2 ^ 64
  | .back _ => True
  | .popBack i => m i ≠ []
  | .insert i j => i ≠ j
  | .splitOff i j _ => i ≠ j ∧ m j = []
  | .moveConstruct j i => i ≠ j ∧ m j = []

/-- The stacks next to the sequences; at first every stack is empty, and no buffer is
    allocated. -/
def machine (σ : Type) [DecidableEq σ] : System (State σ × (σ → List Nat)) (Op σ) where
  init s := (∀ i, s.1.stackOf i = construct) ∧ (∀ a, s.1.memory.live a = false) ∧ ∀ i, s.2 i = []
  step s op s' := op.Allowed s.1 s.2 ∧ ∃ r, op.exec s.1 = .ok (s'.1, r) ∧
    s'.2 = (op.apply s.1 s.2).1

end Model

/-! ## The invariant -/

/-- A chain that is linked is what its links say. -/
theorem chain_eq {m : Memory} {l : List Nat} {p : Option Nat} (h : Seg m.next m.pre p l none) :
    chain m l.length l.head? = l := by
  induction l generalizing p with
  | nil => rfl
  | cons a l ih =>
    obtain ⟨-, hnext, hrest⟩ := h
    rw [List.length_cons, List.head?_cons, chain, hnext, Option.or_none, ih hrest]

section Invariant

variable {σ : Type}

/-- The stacks have the chains `l`, which are disjoint, and the chains the values `m`. -/
structure Inv (s : State σ) (m : σ → List Nat) (l : σ → List Nat) : Prop where
  rep : ∀ i, Rep (s.stackOf i) s.memory (l i)
  apart : ∀ i j, i ≠ j → (l i).Disjoint (l j)
  filled : ∀ i, ∀ a ∈ l i, 0 < (s.memory.buf a).count ∧ (s.memory.buf a).count ≤ MAX
  contents : ∀ i, m i = (l i).flatMap s.memory.values
  addressable : s.memory.Addressable

variable {s : State σ} {m : σ → List Nat} {l : σ → List Nat}

theorem Inv.buffers_eq (h : Inv s m l) (i : σ) : s.buffers i = l i := by
  have hrep := h.rep i
  rw [State.buffers, hrep.size, hrep.head, chain_eq hrep.linked]

theorem Inv.blocks_eq (h : Inv s m l) (i : σ) : s.blocks i = (l i).map s.memory.values := by
  rw [State.blocks, h.buffers_eq]

theorem Inv.length_lt (h : Inv s m l) (i : σ) : (l i).length < 2 ^ 64 :=
  MarkStack.length_lt (fun a ha => h.addressable a ((h.rep i).live a ha)) (h.rep i).nodup

theorem values_length (m : Memory) (a : Nat) : (m.values a).length = (m.buf a).count := by
  rw [Memory.values, List.length_map, List.length_range]

/-- A stack is empty exactly if it has no buffer. -/
theorem Inv.nil_iff (h : Inv s m l) (i : σ) : m i = [] ↔ l i = [] := by
  rw [h.contents i, List.flatMap_eq_nil_iff]
  constructor
  · intro hnil
    cases hl : l i with
    | nil => rfl
    | cons a rest =>
      have ha : a ∈ l i := by rw [hl]; exact List.mem_cons_self
      have hlen := values_length s.memory a
      rw [hnil a ha] at hlen
      have := (h.filled i a ha).1
      rw [← hlen] at this
      exact absurd this (lt_irrefl 0)
  · intro hnil a ha
    rw [hnil] at ha
    exact absurd ha List.not_mem_nil

variable [DecidableEq σ]

/-- One stack and the buffers it touched are replaced. -/
theorem Inv.replace (h : Inv s m l) (i : σ) {st' : MarkStack} {m' : Memory} {l' vs' : List Nat}
    (touched : List Nat) (hrep : Rep st' m' l') (hframe : Frame s.memory m' touched)
    (htouched : ∀ j, j ≠ i → (l j).Disjoint touched)
    (hapart : ∀ j, j ≠ i → l'.Disjoint (l j))
    (hfilled : ∀ a ∈ l', 0 < (m'.buf a).count ∧ (m'.buf a).count ≤ MAX)
    (hcontents : vs' = l'.flatMap m'.values) (haddr : m'.Addressable) :
    Inv (s.setStack i (st', m')) (Function.update m i vs') (Function.update l i l') where
  rep := fun j => by
    show Rep (Function.update s.stackOf i st' j) m' _
    by_cases hj : j = i
    · subst hj
      rw [Function.update_self, Function.update_self]
      exact hrep
    · rw [Function.update_of_ne hj, Function.update_of_ne hj]
      exact (h.rep j).frame hframe (htouched j hj)
  apart := fun j k hjk => by
    by_cases hj : j = i
    · subst hj
      rw [Function.update_self, Function.update_of_ne (Ne.symm hjk)]
      exact hapart k (Ne.symm hjk)
    · by_cases hk : k = i
      · subst hk
        rw [Function.update_self, Function.update_of_ne hj]
        exact (hapart j hj).symm
      · rw [Function.update_of_ne hj, Function.update_of_ne hk]
        exact h.apart j k hjk
  filled := fun j a ha => by
    show 0 < (m'.buf a).count ∧ (m'.buf a).count ≤ MAX
    by_cases hj : j = i
    · subst hj
      rw [Function.update_self] at ha
      exact hfilled a ha
    · rw [Function.update_of_ne hj] at ha
      rw [(hframe a (htouched j hj ha)).1]
      exact h.filled j a ha
  contents := fun j => by
    show _ = List.flatMap m'.values _
    by_cases hj : j = i
    · subst hj
      rw [Function.update_self, Function.update_self]
      exact hcontents
    · rw [Function.update_of_ne hj, Function.update_of_ne hj, h.contents j]
      refine List.flatMap_congr fun a ha => ?_
      rw [hframe.values (htouched j hj ha)]
  addressable := haddr

/-- A stack gives its chain away. -/
theorem Inv.release (h : Inv s m l) (i : σ) :
    Inv (s.setStack i (construct, s.memory)) (Function.update m i []) (Function.update l i []) :=
  h.replace i [] (rep_construct _) (fun _ _ => ⟨rfl, rfl⟩)
    (fun j _ => List.disjoint_nil_right _) (fun j _ => List.disjoint_nil_left _)
    (fun a ha => absurd ha List.not_mem_nil) rfl h.addressable

theorem Inv.released (h : Inv s m l) {i j : σ} (hij : i ≠ j) {k : σ} (hk : k ≠ i) {a : Nat}
    (ha : a ∈ Function.update l j [] k) : k ≠ j ∧ a ∈ l k := by
  by_cases hkj : k = j
  · subst hkj
    rw [Function.update_self] at ha
    exact absurd ha List.not_mem_nil
  · rw [Function.update_of_ne hkj] at ha
    exact ⟨hkj, ha⟩

/-! ## The operations -/

/-- The value goes into the last buffer `a` of a chain that has room there. -/
theorem Inv.putLast (h : Inv s m l) (i : σ) (value : Nat) {st : MarkStack} {m₁ : Memory}
    {l₁ : List Nat} {a : Nat} (hst : Rep st m₁ (l₁ ++ [a])) (hroom : (m₁.buf a).count < MAX)
    (hfilled : ∀ b ∈ l₁, 0 < (m₁.buf b).count ∧ (m₁.buf b).count ≤ MAX)
    (hframe : Frame s.memory m₁ (l₁ ++ [a])) (hdisj : ∀ j, j ≠ i → (l j).Disjoint (l₁ ++ [a]))
    (hcontents : m i = (l₁ ++ [a]).flatMap m₁.values) (haddr : m₁.Addressable) :
    ∃ m', bufPushBack m₁ st.t value = .ok m' ∧
      Inv (s.setStack i (st, m')) (Function.update m i (m i ++ [value]))
        (Function.update l i (l₁ ++ [a])) := by
  have halive := hst.live a (List.mem_append_right l₁ (List.mem_singleton_self a))
  obtain ⟨m', hres, hnext, hpre, hlive, hvalues, hcount, hother⟩ :=
    bufPushBack_spec value halive hroom
  have hnot : a ∉ l₁ := fun hmem =>
    (List.nodup_append'.mp hst.nodup).2.2 hmem (List.mem_singleton_self a)
  have hrep' : Rep st m' (l₁ ++ [a]) := by
    refine hst.congr ?_ ?_
    · intro b _
      rw [hnext, hpre]
      exact ⟨rfl, rfl⟩
    · intro b _
      rw [hlive]
  have hframe' : Frame s.memory m' (l₁ ++ [a]) := by
    refine hframe.trans ?_
    intro b hb
    refine ⟨hother b fun hba => hb ?_, by rw [hlive]⟩
    rw [hba]
    exact List.mem_append_right l₁ (List.mem_singleton_self a)
  have hfilled' : ∀ b ∈ l₁ ++ [a], 0 < (m'.buf b).count ∧ (m'.buf b).count ≤ MAX := by
    intro b hb
    by_cases hba : b = a
    · rw [hba, hcount]
      exact ⟨Nat.succ_pos _, hroom⟩
    · rw [hother b hba]
      rcases List.mem_append.mp hb with hb | hb
      · exact hfilled b hb
      · exact absurd (List.mem_singleton.mp hb) hba
  have hcontents' : m i ++ [value] = (l₁ ++ [a]).flatMap m'.values := by
    have hsame : l₁.flatMap m'.values = l₁.flatMap m₁.values :=
      List.flatMap_congr fun b hb => by
        have hne : b ≠ a := fun heq => hnot (heq ▸ hb)
        rw [Memory.values, hother b hne, Memory.values]
    rw [hcontents, List.flatMap_append, List.flatMap_append, List.flatMap_singleton,
      List.flatMap_singleton, hvalues, hsame, List.append_assoc]
  have haddr' : m'.Addressable := by
    intro b hb
    rw [hlive] at hb
    exact haddr b hb
  refine ⟨m', ?_, h.replace i (l₁ ++ [a]) hrep' hframe' hdisj (fun j hj => (hdisj j hj).symm)
    hfilled' hcontents' haddr'⟩
  rw [hst.tail, List.getLast?_concat]
  exact hres

/-- The value goes into a new buffer, which is not full and changes no values. -/
theorem Inv.putNew (h : Inv s m l) (i : σ) (value : Nat) {fresh : Nat}
    (hfresh : s.memory.live fresh = false) (hpos : 0 < fresh) (hlt : fresh < 2 ^ 64) :
    ∃ st' m' l', (do
      let x ← (s.stackOf i).pushBuffer (newBuffer s.memory fresh) fresh
      let m ← bufPushBack x.2 x.1.t value
      Except.ok (x.1, m)) = .ok (st', m') ∧
      Inv (s.setStack i (st', m')) (Function.update m i (m i ++ [value])) l' := by
  have hrep := h.rep i
  have hfreshl : ∀ j, fresh ∉ l j := by
    intro j hmem
    rw [(h.rep j).live fresh hmem] at hfresh
    exact absurd hfresh (by decide)
  have hne : ∀ b ∈ l i, b ≠ fresh := fun b hb heq => hfreshl i (heq ▸ hb)
  have hlen : (fresh :: l i).length < 2 ^ 64 := by
    refine MarkStack.length_lt ?_ (List.nodup_cons.mpr ⟨hfreshl i, hrep.nodup⟩)
    intro a ha
    rcases List.mem_cons.mp ha with rfl | ha
    · exact ⟨hpos, hlt⟩
    · exact h.addressable a (hrep.live a ha)
  obtain ⟨st₁, m₁, hres, hst, hcount, hvalues, hlive, hframe⟩ := pushBuffer_spec hrep hfresh hlen
  have hfilled : ∀ b ∈ l i, 0 < (m₁.buf b).count ∧ (m₁.buf b).count ≤ MAX := by
    intro b hb
    rw [(hvalues b (hne b hb)).2]
    exact h.filled i b hb
  have hdisj : ∀ j, j ≠ i → (l j).Disjoint (l i ++ [fresh]) := by
    intro j hj a ha ha'
    rcases List.mem_append.mp ha' with ha' | ha'
    · exact h.apart j i hj ha ha'
    · exact hfreshl j (List.mem_singleton.mp ha' ▸ ha)
  have hcontents : m i = (l i ++ [fresh]).flatMap m₁.values := by
    have hnil : m₁.values fresh = [] := List.length_eq_zero_iff.mp (by
      rw [values_length, hcount])
    rw [List.flatMap_append, List.flatMap_singleton, hnil, List.append_nil, h.contents i]
    exact List.flatMap_congr fun b hb => ((hvalues b (hne b hb)).1).symm
  have haddr : m₁.Addressable := by
    intro a ha
    rw [hlive] at ha
    split at ha
    case isTrue heq =>
      rw [heq]
      exact ⟨hpos, hlt⟩
    case isFalse => exact h.addressable a ha
  obtain ⟨m', hpush, hinv⟩ :=
    h.putLast i value hst (by rw [hcount]; decide) hfilled hframe hdisj hcontents haddr
  exact ⟨st₁, m', _, by simp only [hres, hpush, bind, Except.bind], hinv⟩

/-- A push. -/
theorem Inv.pushBack (h : Inv s m l) (i : σ) {value fresh : Nat}
    (hfresh : s.memory.live fresh = false) (hpos : 0 < fresh) (hlt : fresh < 2 ^ 64) :
    ∃ st' m' l', (s.stackOf i).pushBack s.memory value fresh = .ok (st', m') ∧
      Inv (s.setStack i (st', m')) (Function.update m i (m i ++ [value])) l' := by
  have hrep := h.rep i
  rw [MarkStack.pushBack]
  rcases List.eq_nil_or_concat' (l i) with hl | ⟨l₁, a, hl⟩
  · rw [hrep.tail, hl]
    exact h.putNew i value hfresh hpos hlt
  · have hmem : a ∈ l i := by rw [hl]; simp
    have halive := hrep.live a hmem
    have htail : (s.stackOf i).t = some a := by rw [hrep.tail, hl, List.getLast?_concat]
    obtain ⟨hpos', hle⟩ := h.filled i a hmem
    by_cases hfull : (s.memory.buf a).count = MAX
    · simp only [htail, Memory.read_some halive, bind, Except.bind, hfull, decide_true, if_true]
      exact h.putNew i value hfresh hpos hlt
    · obtain ⟨m', hpush, hinv⟩ := h.putLast i value (hl ▸ hrep) (by omega)
        (fun b hb => h.filled i b (by rw [hl]; exact List.mem_append_left [a] hb))
        (fun _ _ => ⟨rfl, rfl⟩) (fun j hj => by rw [← hl]; exact h.apart j i hj)
        (by rw [← hl]; exact h.contents i) h.addressable
      refine ⟨_, m', _, ?_, hinv⟩
      rw [htail] at hpush
      simp only [htail, Memory.read_some halive, bind, Except.bind, hfull, decide_false,
        Bool.false_eq_true, if_false, hpush]

/-- A pop. -/
theorem Inv.popBack (h : Inv s m l) {i : σ} (hne : m i ≠ []) : ∃ st' m' l',
    (s.stackOf i).popBack s.memory = .ok (st', m') ∧
    Inv (s.setStack i (st', m')) (Function.update m i (m i).dropLast) l' := by
  have hrep := h.rep i
  have hnil : l i ≠ [] := fun hl => hne ((h.nil_iff i).mpr hl)
  obtain ⟨l₁, a, hl⟩ := (List.eq_nil_or_concat' (l i)).resolve_left hnil
  have hmem : a ∈ l i := by rw [hl]; simp
  have halive := hrep.live a hmem
  have htail : (s.stackOf i).t = some a := by rw [hrep.tail, hl, List.getLast?_concat]
  have hempty : (s.stackOf i).isEmpty = false := by
    rw [hrep.isEmpty_eq]
    exact decide_eq_false hnil
  obtain ⟨hpos, hle⟩ := h.filled i a hmem
  obtain ⟨m₁, hpop, hnext, hpre, hlive, hvalues, hcount, hother⟩ := bufPopBack_spec halive hpos hle
  have hdisj : ∀ j, j ≠ i → (l j).Disjoint (l₁ ++ [a]) := fun j hj => by
    rw [← hl]
    exact h.apart j i hj
  have hnot : a ∉ l₁ := fun hin =>
    (List.nodup_append'.mp (hl ▸ hrep.nodup)).2.2 hin (List.mem_singleton_self a)
  have hframe : Frame s.memory m₁ (l₁ ++ [a]) := fun b hb =>
    ⟨hother b fun hba => hb (by rw [hba]; simp), by rw [hlive]⟩
  have hrep₁ : Rep (s.stackOf i) m₁ (l₁ ++ [a]) := (hl ▸ hrep).congr
    (fun b _ => by rw [hnext, hpre]; exact ⟨rfl, rfl⟩) fun b _ => by rw [hlive]
  have hrest : ∀ b ∈ l₁, m₁.buf b = s.memory.buf b := fun b hb =>
    hother b fun hba => hnot (hba ▸ hb)
  have hcontents : (m i).dropLast = l₁.flatMap s.memory.values ++ m₁.values a := by
    have hlast : s.memory.values a ≠ [] := fun hnil => by
      have := values_length s.memory a
      rw [hnil, List.length_nil] at this
      omega
    rw [h.contents i, hl, List.flatMap_append, List.flatMap_singleton,
      List.dropLast_append_of_ne_nil hlast, hvalues]
  have hsame : l₁.flatMap s.memory.values = l₁.flatMap m₁.values :=
    List.flatMap_congr fun b hb => by rw [Memory.values, Memory.values, hrest b hb]
  have haddr : m₁.Addressable := fun b hb => by
    rw [hlive] at hb
    exact h.addressable b hb
  rw [MarkStack.popBack, hempty, htail]
  have halive₁ : m₁.live a = true := by rw [hlive]; exact halive
  simp only [hpop, bind, Except.bind, Memory.read_some halive₁, Bool.false_eq_true, if_false]
  -- the last buffer is empty now, or keeps values
  by_cases hzero : (m₁.buf a).count = 0
  · -- the last buffer is empty now, and goes
    have hlen := h.length_lt i
    rw [hl, List.length_append, List.length_singleton] at hlen
    obtain ⟨st', m₂, hres, hst, hvalues₂, hlive₂, hframe₂⟩ := popBuffer_spec hrep₁ hlen
    have halive₂ : m₂.live a = true := by rw [hlive₂]; exact halive₁
    let m' : Memory := { m₂ with live := Function.update m₂.live a false }
    have hlive' : ∀ b, b ≠ a → m'.live b = m₂.live b := fun b hb => Function.update_of_ne hb ..
    have hne' : ∀ b ∈ l₁, b ≠ a := fun b hb heq => hnot (heq ▸ hb)
    have hrep' : Rep st' m' l₁ := hst.congr (fun b _ => ⟨rfl, rfl⟩)
      fun b hb => hlive' b (hne' b hb)
    have hframe' : Frame s.memory m' (l₁ ++ [a]) := (hframe.trans hframe₂).trans
      fun b hb => ⟨rfl, hlive' b fun hba => hb (by rw [hba]; simp)⟩
    have hempty₁ : m₁.values a = [] := List.length_eq_zero_iff.mp (by rw [values_length, hzero])
    refine ⟨st', m', _, ?_, h.replace i _ hrep' hframe' hdisj
      (fun j hj b hb hb' => hdisj j hj hb' (List.mem_append_left [a] hb)) (fun b hb => ?_) ?_
      fun b hb => ?_⟩
    · rw [if_pos hzero]
      simp only [hres, deleteBuffer, if_pos halive₂]
      rfl
    · show 0 < (m₂.buf b).count ∧ (m₂.buf b).count ≤ MAX
      rw [(hvalues₂ b).2, hrest b hb]
      exact h.filled i b (by rw [hl]; exact List.mem_append_left [a] hb)
    · rw [hcontents, hempty₁, List.append_nil, hsame]
      exact List.flatMap_congr fun b _ => ((hvalues₂ b).1).symm
    · by_cases hba : b = a
      · rw [hba] at hb
        exact absurd ((Function.update_self a false m₂.live).symm.trans hb) (by decide)
      · rw [hlive' b hba, hlive₂] at hb
        exact haddr b hb
  · refine ⟨s.stackOf i, m₁, _, by rw [if_neg hzero], h.replace i _ hrep₁ hframe hdisj
      (fun j hj => (hdisj j hj).symm) (fun b hb => ?_) ?_ haddr⟩
    · rcases List.mem_append.mp hb with hb | hb
      · rw [hrest b hb]
        exact h.filled i b (by rw [hl]; exact List.mem_append_left [a] hb)
      · rw [List.mem_singleton.mp hb]
        exact ⟨Nat.pos_of_ne_zero hzero, by omega⟩
    · rw [hcontents, List.flatMap_append, List.flatMap_singleton, hsame]

/-- An insert: the other stack gives its chain away first. -/
theorem Inv.insert (h : Inv s m l) {i j : σ} (hij : i ≠ j) : ∃ st' m' l',
    (s.stackOf i).insert (s.stackOf j) s.memory = .ok (st', construct, m') ∧
    Inv { stackOf := Function.update (Function.update s.stackOf j construct) i st', memory := m' }
      (Function.update (Function.update m j []) i (m i ++ m j)) l' := by
  have hdisj := h.apart i j hij
  have hnodup := List.nodup_append'.mpr ⟨(h.rep i).nodup, (h.rep j).nodup, hdisj⟩
  have hlen : (l i ++ l j).length < 2 ^ 64 := MarkStack.length_lt (fun a ha =>
    (List.mem_append.mp ha).elim (fun ha => h.addressable a ((h.rep i).live a ha))
      fun ha => h.addressable a ((h.rep j).live a ha)) hnodup
  obtain ⟨st', m', hres, hrep, hvalues, hlive, hframe⟩ :=
    insert_spec (h.rep i) (h.rep j) hdisj hlen
  have hothers : ∀ k, k ≠ i → (Function.update l j [] k).Disjoint (l i ++ l j) := by
    intro k hk a ha ha'
    obtain ⟨hkj, ha⟩ := h.released hij hk ha
    exact (List.mem_append.mp ha').elim (h.apart k i hk ha) (h.apart k j hkj ha)
  refine ⟨st', m', _, hres, (h.release j).replace i _ hrep hframe hothers
    (fun k hk => (hothers k hk).symm) (fun a ha => ?_) ?_ fun a ha => ?_⟩
  · rw [(hvalues a).2]
    exact (List.mem_append.mp ha).elim (h.filled i a) (h.filled j a)
  · rw [h.contents i, h.contents j, ← List.flatMap_append]
    exact List.flatMap_congr fun a _ => ((hvalues a).1).symm
  · rw [hlive] at ha
    exact h.addressable a ha

/-- A split, and the construction of a stack from the chain. -/
theorem Inv.splitOff (h : Inv s m l) {i j : σ} (hij : i ≠ j) (hj : m j = []) (n : Nat) :
    ∃ st' m' destination l', (s.stackOf i).split s.memory n = .ok (st', m', ((l i).take n).head?) ∧
    constructFromBuffer m' (s.stackOf i).s ((l i).take n).head? = .ok destination ∧
    Inv { stackOf := Function.update (Function.update s.stackOf j destination) i st', memory := m' }
      (Function.update (Function.update m j ((s.blocks i).take n).flatten) i
        ((s.blocks i).drop n).flatten) l' := by
  have hrep := h.rep i
  have hlen := h.length_lt i
  obtain ⟨st', m', hres, hst, hfirst, hvalues, hlive, hframe⟩ := split_spec hrep n hlen
  have htake : ∀ a ∈ (l i).take n, a ∈ l i := fun a ha => List.mem_of_mem_take ha
  have hdrop : ∀ a ∈ (l i).drop n, a ∈ l i := fun a ha => List.mem_of_mem_drop ha
  have hnodup := hrep.nodup
  rw [← List.take_append_drop n (l i)] at hnodup
  obtain ⟨hntake, -, hsplit⟩ := List.nodup_append'.mp hnodup
  have hlentake : ((l i).take n).length ≤ (l i).length := List.length_take_le' n (l i)
  obtain ⟨destination, hconstruct, hdst⟩ := constructFromBuffer_spec
    (show ((l i).take n).length ≤ (s.stackOf i).s from hrep.size ▸ hlentake) (by omega) hfirst
    (fun a ha => by rw [hlive]; exact hrep.live a (htake a ha)) hntake
  have haddr : m'.Addressable := fun a ha => by
    rw [hlive] at ha
    exact h.addressable a ha
  have hfilled : ∀ a ∈ l i, 0 < (m'.buf a).count ∧ (m'.buf a).count ≤ MAX := fun a ha => by
    rw [(hvalues a).2]
    exact h.filled i a ha
  have hblocks : ∀ l₁ : List Nat, (l₁.map s.memory.values).flatten = l₁.flatMap m'.values :=
    fun l₁ => by
      rw [← List.flatMap_def]
      exact List.flatMap_congr fun a _ => ((hvalues a).1).symm
  have hvs : ((s.blocks i).drop n).flatten = ((l i).drop n).flatMap m'.values := by
    rw [h.blocks_eq, ← List.map_drop, hblocks]
  have hsource := h.replace i _ hst hframe (fun k hk => h.apart k i hk)
    (fun k hk a ha ha' => h.apart k i hk ha' (hdrop a ha)) (fun a ha => hfilled a (hdrop a ha))
    hvs haddr
  have hnil : l j = [] := (h.nil_iff j).mp hj
  refine ⟨st', m', destination, Function.update (Function.update l i ((l i).drop n)) j
    ((l i).take n), hres, hconstruct, ?_⟩
  rw [Function.update_comm hij.symm, Function.update_comm hij.symm]
  refine hsource.replace j [] hdst (fun _ _ => ⟨rfl, rfl⟩)
    (fun k _ => List.disjoint_nil_right _) (fun k hk a ha ha' => ?_)
    (fun a ha => hfilled a (htake a ha)) ?_ haddr
  · by_cases hki : k = i
    · subst hki
      rw [Function.update_self] at ha'
      exact hsplit ha ha'
    · rw [Function.update_of_ne hki] at ha'
      exact h.apart k i hki ha' (htake a ha)
  · rw [h.blocks_eq, ← List.map_take, hblocks]

/-- A move. -/
theorem Inv.moveConstruct (h : Inv s m l) {i j : σ} (hij : i ≠ j) (hj : m j = []) : ∃ l',
    Inv { s with stackOf := Function.update (Function.update s.stackOf j (s.stackOf i)) i construct }
      (Function.update (Function.update m j (m i)) i []) l' := by
  refine ⟨Function.update (Function.update l i []) j (l i), ?_⟩
  rw [Function.update_comm hij.symm, Function.update_comm hij.symm]
  refine (h.release i).replace j [] (h.rep i) (fun _ _ => ⟨rfl, rfl⟩)
    (fun k _ => List.disjoint_nil_right _) (fun k hk a ha ha' => ?_) (h.filled i)
    (h.contents i) h.addressable
  obtain ⟨hki, ha'⟩ := h.released hij.symm hk ha'
  exact h.apart k i hki ha' ha

omit [DecidableEq σ] in
/-- The value `Back` returns. -/
theorem Inv.back (h : Inv s m l) (i : σ) :
    (s.stackOf i).back s.memory = .ok ((m i).getLast?.getD 0) := by
  have hrep := h.rep i
  rcases List.eq_nil_or_concat' (l i) with hl | ⟨l₁, a, hl⟩
  · rw [(h.nil_iff i).mpr hl, MarkStack.back, hrep.tail, hl]
    rfl
  · have hmem : a ∈ l i := by rw [hl]; simp
    have htail : (s.stackOf i).t = some a := by rw [hrep.tail, hl, List.getLast?_concat]
    obtain ⟨hpos, hle⟩ := h.filled i a hmem
    obtain ⟨value, hres, hlast⟩ := bufBack_spec (hrep.live a hmem) hpos hle
    have hne : s.memory.values a ≠ [] := fun hnil => by
      rw [hnil] at hlast
      exact absurd hlast nofun
    rw [MarkStack.back, htail]
    show bufBack s.memory (some a) = _
    rw [hres, h.contents i, hl, List.flatMap_append, List.flatMap_singleton,
      List.getLast?_append_of_ne_nil _ hne, hlast]
    rfl

/-- **One operation.**  It returns what the model returns, and represents the model again.  One case
    for each operation, and the lemma about its effect on the chains of buffers. -/
theorem Inv.exec (h : Inv s m l) {op : Op σ} (hop : op.Allowed s m) : ∃ s' l',
    op.exec s = .ok (s', (op.apply s m).2) ∧ Inv s' (op.apply s m).1 l' := by
  cases op with
  | pushBack i value fresh =>
    obtain ⟨st', m', l', hres, hinv⟩ := h.pushBack i hop.1 hop.2.1 hop.2.2
    exact ⟨_, l', by simp only [Op.exec, hres, bind, Except.bind]; rfl, hinv⟩
  | back i => exact ⟨s, l, by simp only [Op.exec, h.back i, bind, Except.bind]; rfl, h⟩
  | popBack i =>
    obtain ⟨st', m', l', hres, hinv⟩ := h.popBack hop
    exact ⟨_, l', by simp only [Op.exec, hres, bind, Except.bind]; rfl, hinv⟩
  | insert i j =>
    obtain ⟨st', m', l', hres, hinv⟩ := h.insert hop
    exact ⟨_, l', by simp only [Op.exec, hres, bind, Except.bind]; rfl, hinv⟩
  | splitOff i j n =>
    obtain ⟨st', m', destination, l', hres, hconstruct, hinv⟩ := h.splitOff hop.1 hop.2 n
    exact ⟨_, l', by simp only [Op.exec, hres, hconstruct, bind, Except.bind]; rfl, hinv⟩
  | moveConstruct j i =>
    obtain ⟨l', hinv⟩ := h.moveConstruct hop.1 hop.2
    refine ⟨_, l', ?_, hinv⟩
    rw [Op.exec, MarkStack.moveConstruct, (h.rep i).clean_eq]
    rfl

end Invariant

/-! ## Every run -/

section Runs

variable {σ : Type} [DecidableEq σ]

theorem machine_invariant (σ : Type) [DecidableEq σ] :
    (machine σ).Invariant fun s => ∃ l, Inv s.1 s.2 l where
  init := by
    rintro ⟨s, m⟩ ⟨hstacks, hlive, hnil⟩
    refine ⟨fun _ => [], fun i => ?_, fun _ _ _ => List.disjoint_nil_left _,
      fun _ a ha => absurd ha List.not_mem_nil, hnil, fun a ha => ?_⟩
    · simp only at hstacks
      rw [hstacks i]
      exact rep_construct _
    · simp only at hlive
      rw [hlive a] at ha
      exact absurd ha (by decide)
  step := by
    rintro ⟨s, m⟩ op ⟨s', m'⟩ ⟨l, hinv⟩ ⟨hop, r, hres, hm⟩
    simp only at hinv hop hres hm
    obtain ⟨s'', l', hs'', hinv'⟩ := hinv.exec hop
    rw [hs''] at hres
    obtain rfl := (Prod.mk.inj (Except.ok.inj hres)).1
    rw [hm]
    exact ⟨l', hinv'⟩

/-- The stacks represent the sequences, and can go on doing so. -/
structure Refines (s : State σ) (m : σ → List Nat) : Prop where
  /-- No value is lost, duplicated or out of order. -/
  contents : ∀ i, (s.blocks i).flatten = m i
  /-- Every buffer holds between 1 and 64 values. -/
  filled : ∀ i, ∀ block ∈ s.blocks i, 1 ≤ block.length ∧ block.length ≤ 64
  /-- Head, tail and links are consistent, and the size is the number of buffers. -/
  rep : ∀ i, Rep (s.stackOf i) s.memory (s.buffers i)
  /-- No buffer is in two stacks. -/
  apart : ∀ i j, i ≠ j → (s.buffers i).Disjoint (s.buffers j)
  /-- Within its precondition an operation does not abort, and returns what the model returns. -/
  returns : ∀ op : Op σ, op.Allowed s m → ∃ s', op.exec s = .ok (s', (op.apply s m).2)
  /-- A pop aborts exactly on an empty stack. -/
  aborts : ∀ i, (Op.popBack i).exec s = .error .abort ↔ m i = []

/-- The invariant is enough for the refinement. -/
theorem Inv.refines {s : State σ} {m : σ → List Nat} {l : σ → List Nat} (hinv : Inv s m l) :
    Refines s m := by
  refine ⟨fun i => ?_, fun i block hblock => ?_, fun i => ?_, fun i j hij => ?_, fun op hop => ?_,
    fun i => ⟨fun habort => ?_, fun hnil => ?_⟩⟩
  · rw [hinv.blocks_eq, ← List.flatMap_def]
    exact (hinv.contents i).symm
  · rw [hinv.blocks_eq] at hblock
    obtain ⟨a, ha, rfl⟩ := List.mem_map.mp hblock
    rw [values_length]
    exact hinv.filled i a ha
  · rw [hinv.buffers_eq]
    exact hinv.rep i
  · rw [hinv.buffers_eq, hinv.buffers_eq]
    exact hinv.apart i j hij
  · obtain ⟨s', l', hres, -⟩ := hinv.exec hop
    exact ⟨s', hres⟩
  · by_contra hne
    obtain ⟨s', l', hres, -⟩ := hinv.exec (show Op.Allowed s m (.popBack i) from hne)
    rw [hres] at habort
    exact absurd habort nofun
  · have hempty : (s.stackOf i).isEmpty = true := by
      rw [(hinv.rep i).isEmpty_eq]
      exact decide_eq_true ((hinv.nil_iff i).mp hnil)
    simp only [Op.exec, MarkStack.popBack, hempty, if_true, bind, Except.bind]

/-- **Mark stacks refine sequences**, after every finite sequence of operations on any number of
    stacks: the buffers of a stack hold the values of its sequence in order, no buffer is in two
    stacks, and an operation within its precondition returns what the sequence returns. -/
theorem reachable_sequences {s : State σ} {m : σ → List Nat} (h : (machine σ).Reachable (s, m)) :
    Refines s m := by
  obtain ⟨l, hinv⟩ := (machine_invariant σ).reachable h
  exact hinv.refines

/-- Two values are pushed, a third on another stack, which is inserted, and the two buffers are
    split. -/
theorem reachable_sequences_split : ∃ (s : State Bool) (m : Bool → List Nat),
    (machine Bool).Reachable (s, m) ∧ Refines s m ∧ m true = [1, 2] ∧ m false = [3] := by
  have step : ∀ {s s' : State Bool} {m : Bool → List Nat} {r : Option Nat} (op : Op Bool),
      (machine Bool).Reachable (s, m) → op.Allowed s m → op.exec s = .ok (s', r) →
      (machine Bool).Reachable (s', (op.apply s m).1) :=
    fun op h hop hexec => h.step (e := op) ⟨hop, _, hexec, rfl⟩
  have h₀ : (machine Bool).Reachable
      ((⟨fun _ => construct, ⟨fun _ => ⟨none, none, 0, fun _ => 0⟩, fun _ => false⟩⟩ : State Bool),
        fun _ => []) := .init ⟨fun _ => rfl, fun _ => rfl, fun _ => rfl⟩
  have h₁ := step (.pushBack false 1 8) h₀ ⟨rfl, by decide, by decide⟩ rfl
  have h₂ := step (.pushBack false 2 24) h₁ ⟨rfl, by decide, by decide⟩ rfl
  have h₃ := step (.pushBack true 3 16) h₂ ⟨rfl, by decide, by decide⟩ rfl
  have h₄ := step (.insert false true) h₃ (by decide : false ≠ true) rfl
  have h₅ := step (.splitOff false true 1) h₄ ⟨by decide, rfl⟩ rfl
  exact ⟨_, _, h₅, reachable_sequences h₅, rfl, rfl⟩

end Runs

end MarkStack

end CangjieRuntime.Gc
