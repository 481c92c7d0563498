/-
  What each operation of a mark stack does to its chain of buffers.

  `Rep` ties a stack to the buffers of its chain: head, tail, links, size.  The values are not part
  of it: they are read off the buffers (`values`), and an operation either changes the links, which
  leaves the values alone, or the last buffer, which leaves the links alone.
-/
import CangjieRuntime.Gc.MarkStack

set_option linter.unusedVariables false

namespace CangjieRuntime.Gc

open Linked

namespace MarkStack

/-! ## Memory -/

/-- The buffer behind a buffer. -/
def Memory.next (m : Memory) (a : Nat) : Option Nat := (m.buf a).next

/-- The buffer before a buffer. -/
def Memory.pre (m : Memory) (a : Nat) : Option Nat := (m.buf a).pre

/-- The values in a buffer. -/
def Memory.values (m : Memory) (a : Nat) : List Nat :=
  (List.range (m.buf a).count).map (m.buf a).stack

/-- Write a buffer's `next`; nothing happens at a null pointer. -/
def Memory.setNext (m : Memory) (p q : Option Nat) : Memory :=
  { m with buf := fun a => if p = some a then { m.buf a with next := q } else m.buf a }

/-- Write a buffer's `pre`; nothing happens at a null pointer. -/
def Memory.setPre (m : Memory) (p q : Option Nat) : Memory :=
  { m with buf := fun a => if p = some a then { m.buf a with pre := q } else m.buf a }

section Memory

variable (m : Memory) (p q : Option Nat) (a : Nat)

@[simp] theorem Memory.live_setNext : (m.setNext p q).live = m.live := rfl
@[simp] theorem Memory.live_setPre : (m.setPre p q).live = m.live := rfl

/-- A write of a next link shows at its buffer alone. -/
@[simp] theorem Memory.next_setNext :
    (m.setNext p q).next a = if p = some a then q else m.next a := by
  by_cases h : p = some a <;> simp [Memory.next, Memory.setNext, h]

/-- It leaves the links to the buffers before. -/
@[simp] theorem Memory.pre_setNext : (m.setNext p q).pre a = m.pre a := by
  by_cases h : p = some a <;> simp [Memory.pre, Memory.setNext, h]

/-- A write of the other link leaves the next links. -/
@[simp] theorem Memory.next_setPre : (m.setPre p q).next a = m.next a := by
  by_cases h : p = some a <;> simp [Memory.next, Memory.setPre, h]

/-- It shows at its buffer alone, too. -/
@[simp] theorem Memory.pre_setPre :
    (m.setPre p q).pre a = if p = some a then q else m.pre a := by
  by_cases h : p = some a <;> simp [Memory.pre, Memory.setPre, h]

@[simp] theorem Memory.count_setNext :
    ((m.setNext p q).buf a).count = (m.buf a).count := by
  by_cases h : p = some a <;> simp [Memory.setNext, h]

@[simp] theorem Memory.count_setPre : ((m.setPre p q).buf a).count = (m.buf a).count := by
  by_cases h : p = some a <;> simp [Memory.setPre, h]

@[simp] theorem Memory.values_setNext : (m.setNext p q).values a = m.values a := by
  by_cases h : p = some a <;> simp [Memory.values, Memory.setNext, h]

@[simp] theorem Memory.values_setPre : (m.setPre p q).values a = m.values a := by
  by_cases h : p = some a <;> simp [Memory.values, Memory.setPre, h]

@[simp] theorem Memory.setPre_none : m.setPre none q = m := rfl

end Memory

/-- A buffer other than the one that is written is as before. -/
theorem Memory.buf_setNext (m : Memory) {p : Option Nat} (q : Option Nat) {a : Nat}
    (h : p ≠ some a) : (m.setNext p q).buf a = m.buf a := if_neg h

/-- The same for the link to the buffer before. -/
theorem Memory.buf_setPre (m : Memory) {p : Option Nat} (q : Option Nat) {a : Nat}
    (h : p ≠ some a) : (m.setPre p q).buf a = m.buf a := if_neg h

/-- A read of a buffer that was not freed does not fail. -/
theorem Memory.read_some {m : Memory} {a : Nat} (h : m.live a = true) :
    m.read (some a) = .ok (m.buf a) := if_pos h

/-- A write to a live buffer changes that buffer only. -/
theorem Memory.modify_eq {m : Memory} {a : Nat} (h : m.live a = true)
    (f : MarkStackBuf → MarkStackBuf) :
    m.modify (some a) f =
      .ok { m with buf := fun b => if some a = some b then f (m.buf b) else m.buf b } := by
  rw [Memory.modify, if_pos h]
  congr 2
  funext b
  by_cases hb : b = a
  · subst hb
    rw [if_pos rfl, Function.update_self]
  · rw [if_neg (by simpa using Ne.symm hb), Function.update_of_ne hb]

/-- The next link of a buffer that was not freed is written. -/
theorem Memory.modify_next {m : Memory} {a : Nat} (h : m.live a = true) (q : Option Nat) :
    (m.modify (some a) fun b => { b with next := q }) = .ok (m.setNext (some a) q) :=
  Memory.modify_eq h _

/-- So is its link to the buffer before. -/
theorem Memory.modify_pre {m : Memory} {a : Nat} (h : m.live a = true) (q : Option Nat) :
    (m.modify (some a) fun b => { b with pre := q }) = .ok (m.setPre (some a) q) :=
  Memory.modify_eq h _

/-- The operation left the buffers outside of `touched` alone. -/
def Frame (m m' : Memory) (touched : List Nat) : Prop :=
  ∀ a, a ∉ touched → m'.buf a = m.buf a ∧ m'.live a = m.live a

/-- Two steps that leave the same buffers leave them together. -/
theorem Frame.trans {m m' m'' : Memory} {touched : List Nat} (h : Frame m m' touched)
    (h' : Frame m' m'' touched) : Frame m m'' touched := fun a ha =>
  ⟨(h' a ha).1.trans (h a ha).1, (h' a ha).2.trans (h a ha).2⟩

/-- An address of the allocator: not null, and 64 bits. -/
def Memory.Addressable (m : Memory) : Prop := ∀ a, m.live a = true → 0 < a ∧ a < 2 ^ 64

/-! ## Representation -/

/-- The stack's chain is `l`.  From the head the `next` links go through the buffers of `l` in
    order, from the tail the `pre` links go back, and all of them are allocated. -/
structure Rep (st : MarkStack) (m : Memory) (l : List Nat) : Prop where
  head : st.h = l.head?
  tail : st.t = l.getLast?
  linked : Seg m.next m.pre none l none
  size : st.s = l.length
  live : ∀ a ∈ l, m.live a = true
  nodup : l.Nodup

section Rep

variable {st : MarkStack} {m m' : Memory} {l l' : List Nat}

/-- A stack is still the same if none of its buffers was touched. -/
theorem Rep.frame {touched : List Nat} (h : Rep st m l) (hframe : Frame m m' touched)
    (hdisj : l.Disjoint touched) : Rep st m' l where
  head := h.head
  tail := h.tail
  linked := h.linked.congr fun a ha => by
    rw [Memory.next, Memory.pre, (hframe a fun hmem => hdisj ha hmem).1]
    exact ⟨rfl, rfl⟩
  size := h.size
  live := fun a ha => by
    rw [(hframe a fun hmem => hdisj ha hmem).2]
    exact h.live a ha
  nodup := h.nodup

/-- The values of a buffer that was not touched are the same. -/
theorem Frame.values {touched : List Nat} (hframe : Frame m m' touched) {a : Nat}
    (ha : a ∉ touched) : m'.values a = m.values a := by
  rw [Memory.values, Memory.values, (hframe a ha).1]

/-- A stack is empty if it has no buffers; the source asks for its head. -/
theorem Rep.isEmpty_eq (h : Rep st m l) : st.isEmpty = decide (l = []) := by
  rw [MarkStack.isEmpty, h.size, h.head, h.tail]
  cases l <;> simp

/-- A new stack has no buffers. -/
theorem rep_construct (m : Memory) : Rep construct m [] where
  head := rfl
  tail := rfl
  linked := trivial
  size := rfl
  live := fun a ha => absurd ha List.not_mem_nil
  nodup := List.nodup_nil

/-- The number of buffers fits its word. -/
theorem length_lt (haddr : ∀ a ∈ l, 0 < a ∧ a < 2 ^ 64) (hnodup : l.Nodup) :
    l.length < 2 ^ 64 := by
  have hsub : l ⊆ (List.range (2 ^ 64 - 1)).map (· + 1) := fun a ha => by
    have := haddr a ha
    exact List.mem_map.mpr ⟨a - 1, List.mem_range.mpr (by omega), by omega⟩
  have := (hnodup.subperm hsub).length_le
  rw [List.length_map, List.length_range] at this
  omega

/-- Only the links and the liveness of the chain's buffers matter. -/
theorem Rep.congr (h : Rep st m l) (hlinks : ∀ a ∈ l, m'.next a = m.next a ∧ m'.pre a = m.pre a)
    (hlive : ∀ a ∈ l, m'.live a = m.live a) : Rep st m' l :=
  ⟨h.head, h.tail, h.linked.congr hlinks, h.size, fun a ha => (hlive a ha).trans (h.live a ha),
    h.nodup⟩

/-! ## The last buffer -/

/-- A push into a buffer with room appends the value, and touches no link and no other buffer. -/
theorem bufPushBack_spec {a : Nat} (value : Nat) (hlive : m.live a = true)
    (hroom : (m.buf a).count < MAX) : ∃ m', bufPushBack m (some a) value = .ok m' ∧
      m'.next = m.next ∧ m'.pre = m.pre ∧ m'.live = m.live ∧
      m'.values a = m.values a ++ [value] ∧ (m'.buf a).count = (m.buf a).count + 1 ∧
      ∀ b, b ≠ a → m'.buf b = m.buf b := by
  simp only [MAX] at hroom
  have hadd : Words.add 64 (m.buf a).count 1 = (m.buf a).count + 1 := Words.add_eq (by omega)
  let value' : MarkStackBuf :=
    { m.buf a with
      stack := Function.update (m.buf a).stack (m.buf a).count value
      count := (m.buf a).count + 1 }
  let m' : Memory := { m with buf := Function.update m.buf a value' }
  have hself : m'.buf a = value' := Function.update_self ..
  have hother : ∀ b, b ≠ a → m'.buf b = m.buf b := fun b hb => Function.update_of_ne hb ..
  refine ⟨m', ?_, ?_, ?_, rfl, ?_, by rw [hself], hother⟩
  · simp only [bufPushBack, Memory.read_some hlive, bind, Except.bind, Memory.modify, hadd,
      if_pos hlive, m', value']
    rw [if_neg (by simp only [MAX]; omega)]
  · funext b
    by_cases hb : b = a
    · rw [hb, Memory.next, hself]
      rfl
    · rw [Memory.next, hother b hb]
      rfl
  · funext b
    by_cases hb : b = a
    · rw [hb, Memory.pre, hself]
      rfl
    · rw [Memory.pre, hother b hb]
      rfl
  · rw [Memory.values, hself, List.range_succ, List.map_append, List.map_singleton]
    simp only [value', Function.update_self]
    rw [Memory.values]
    congr 1
    refine List.map_congr_left fun k hk => ?_
    have := List.mem_range.mp hk
    rw [Function.update_of_ne (by omega)]

/-- The last value of a buffer that has one is returned. -/
theorem bufBack_spec {a : Nat} (hlive : m.live a = true) (hpos : 0 < (m.buf a).count)
    (hle : (m.buf a).count ≤ MAX) : ∃ value, bufBack m (some a) = .ok value ∧
      (m.values a).getLast? = some value := by
  simp only [MAX] at hle
  obtain ⟨k, hk⟩ : ∃ k, (m.buf a).count = k + 1 := ⟨(m.buf a).count - 1, by omega⟩
  have hsub : Words.sub 64 (m.buf a).count 1 = k := by
    rw [Words.sub_eq (by omega) (by omega)]
    omega
  refine ⟨(m.buf a).stack k, ?_, ?_⟩
  · simp only [bufBack, Memory.read_some hlive, bind, Except.bind, hsub]
    rw [if_neg (by omega)]
  · rw [Memory.values, hk, List.range_succ, List.map_append, List.map_singleton,
      List.getLast?_concat]

/-- A pop takes the last value off, and touches no link and no other buffer. -/
theorem bufPopBack_spec {a : Nat} (hlive : m.live a = true) (hpos : 0 < (m.buf a).count)
    (hle : (m.buf a).count ≤ MAX) : ∃ m', bufPopBack m (some a) = .ok m' ∧
      m'.next = m.next ∧ m'.pre = m.pre ∧ m'.live = m.live ∧
      m'.values a = (m.values a).dropLast ∧ (m'.buf a).count + 1 = (m.buf a).count ∧
      ∀ b, b ≠ a → m'.buf b = m.buf b := by
  simp only [MAX] at hle
  obtain ⟨k, hk⟩ : ∃ k, (m.buf a).count = k + 1 := ⟨(m.buf a).count - 1, by omega⟩
  have hsub : Words.sub 64 (m.buf a).count 1 = k := by
    rw [Words.sub_eq (by omega) (by omega)]
    omega
  let value' : MarkStackBuf := { m.buf a with count := k }
  let m' : Memory := { m with buf := Function.update m.buf a value' }
  have hself : m'.buf a = value' := Function.update_self ..
  have hother : ∀ b, b ≠ a → m'.buf b = m.buf b := fun b hb => Function.update_of_ne hb ..
  refine ⟨m', ?_, ?_, ?_, rfl, ?_, by rw [hself, hk], hother⟩
  · simp only [bufPopBack, Memory.read_some hlive, bind, Except.bind, Memory.modify, hsub,
      if_pos hlive, m', value']
    rw [if_neg (by omega)]
  · funext b
    by_cases hb : b = a
    · rw [hb, Memory.next, hself]
      rfl
    · rw [Memory.next, hother b hb]
      rfl
  · funext b
    by_cases hb : b = a
    · rw [hb, Memory.pre, hself]
      rfl
    · rw [Memory.pre, hother b hb]
      rfl
  · rw [Memory.values, hself, Memory.values, hk, List.range_succ, List.map_append,
      List.map_singleton, List.dropLast_concat]

/-! ## Buffers at the end of the chain -/

/-- **`MarkStackPushBuffer`** of a new buffer puts it at the end.  Only the links of the last buffer
    and of the new one are written, so that the chains of other stacks are as before. -/
theorem pushBuffer_spec (h : Rep st m l) {fresh : Nat} (hfresh : m.live fresh = false)
    (hlen : l.length + 1 < 2 ^ 64) : ∃ st' m',
      st.pushBuffer (newBuffer m fresh) fresh = .ok (st', m') ∧ Rep st' m' (l ++ [fresh]) ∧
      (m'.buf fresh).count = 0 ∧ (∀ a, a ≠ fresh → m'.values a = m.values a ∧
        (m'.buf a).count = (m.buf a).count) ∧
      (∀ a, m'.live a = if a = fresh then true else m.live a) ∧
      Frame m m' (l ++ [fresh]) := by
  have hnot : fresh ∉ l := fun hmem => by
    rw [h.live fresh hmem] at hfresh
    exact absurd hfresh (by decide)
  let base := newBuffer m fresh
  have hself : base.buf fresh = ⟨none, none, 0, (m.buf fresh).stack⟩ := Function.update_self ..
  have hother : ∀ a, a ≠ fresh → base.buf a = m.buf a := fun a ha => Function.update_of_ne ha ..
  have hlive : ∀ a, base.live a = if a = fresh then true else m.live a := fun a => by
    by_cases ha : a = fresh
    · rw [if_pos ha, ha]
      exact Function.update_self ..
    · rw [if_neg ha]
      exact Function.update_of_ne ha ..
  have hlivel : ∀ a ∈ l, base.live a = true := fun a ha => by
    rw [hlive, h.live a ha]
    split <;> rfl
  have hsize : Words.add 64 st.s 1 = (l ++ [fresh]).length := by
    rw [h.size, Words.add_eq hlen, List.length_append, List.length_singleton]
  -- the links, in both cases
  let m' := (base.setPre (some fresh) l.getLast?).setNext l.getLast? (some fresh)
  have hlinked : Seg m'.next m'.pre none (l ++ [fresh]) none := by
    have hl : Seg base.next base.pre none l none := h.linked.congr fun a ha => by
      have hne : a ≠ fresh := fun heq => hnot (heq ▸ ha)
      rw [Memory.next, Memory.pre, hother a hne]
      exact ⟨rfl, rfl⟩
    have hsingle : Seg base.next base.pre none [fresh] none := by
      refine ⟨?_, ?_, trivial⟩
      · rw [Memory.pre, hself]
      · rw [Memory.next, hself]
        rfl
    refine hl.join hsingle ?_ (fun a _ => ?_) fun a _ => ?_
    · exact List.nodup_append'.mpr ⟨h.nodup, List.nodup_singleton fresh,
        List.disjoint_singleton.mpr hnot⟩
    · simp [m']
    · simp [m']
  have hrep : Rep ⟨(l ++ [fresh]).head?, some fresh, (l ++ [fresh]).length⟩ m' (l ++ [fresh]) :=
    { head := rfl
      tail := by rw [List.getLast?_concat]
      linked := hlinked
      size := rfl
      live := fun a ha => by
        show base.live a = true
        rcases List.mem_append.mp ha with ha | ha
        · exact hlivel a ha
        · rw [List.mem_singleton.mp ha, hlive, if_pos rfl]
      nodup := List.nodup_append'.mpr ⟨h.nodup, List.nodup_singleton fresh,
        List.disjoint_singleton.mpr hnot⟩ }
  refine ⟨_, m', ?_, hrep, by simp [m', hself], fun a ha => ?_, hlive, fun a ha => ?_⟩
  · rw [pushBuffer, h.isEmpty_eq]
    rcases List.eq_nil_or_concat' l with rfl | ⟨l, t, rfl⟩
    · have hm' : m' = base := by
        show base.setPre (some fresh) none = base
        rw [Memory.setPre]
        congr 1
        funext a
        split
        case isTrue ha =>
          obtain rfl := Option.some.inj ha
          show ({ base.buf fresh with pre := none } : MarkStackBuf) = base.buf fresh
          rw [hself]
        case isFalse => rfl
      rw [hsize, hm']
      rfl
    · have htail : st.t = some t := by rw [h.tail, List.getLast?_concat]
      have htlive : (base.setPre (some fresh) (some t)).live t = true :=
        hlivel t (List.mem_append_right l (List.mem_singleton_self t))
      have hflive : base.live fresh = true := by rw [hlive, if_pos rfl]
      have hnil : decide (l ++ [t] = []) = false := by simp
      rw [hnil, hsize, htail, h.head, List.head?_append_of_ne_nil _ (List.concat_ne_nil t l)]
      simp only [bind, Except.bind, base, Memory.modify_pre hflive, Memory.modify_next htlive,
        m', List.getLast?_concat]
      rfl
  · have hvalues : base.values a = m.values a := by rw [Memory.values, hother a ha, Memory.values]
    simp [m', hvalues, hother a ha]
  · have hal : l.getLast? ≠ some a := fun hl =>
      ha (List.mem_append_left [fresh] (List.mem_of_getLast? hl))
    have haf : a ≠ fresh := fun heq =>
      ha (List.mem_append_right l (by rw [heq]; exact List.mem_singleton_self fresh))
    have haf' : some fresh ≠ some a := by simpa using Ne.symm haf
    constructor
    · rw [Memory.buf_setNext _ _ hal, Memory.buf_setPre _ _ haf', hother a haf]
    · show base.live a = m.live a
      rw [hlive, if_neg haf]

/-- **`MarkStackPopBuffer`** takes the last buffer off.  The buffer before it becomes the tail, or
    the stack is empty; the buffer itself is not freed. -/
theorem popBuffer_spec {a : Nat} (h : Rep st m (l ++ [a])) (hlen : l.length + 1 < 2 ^ 64) :
    ∃ st' m', st.popBuffer m = .ok (st', m', some a) ∧ Rep st' m' l ∧
      (∀ b, m'.values b = m.values b ∧ (m'.buf b).count = (m.buf b).count) ∧
      m'.live = m.live ∧ Frame m m' (l ++ [a]) := by
  have hempty : st.isEmpty = false := by rw [h.isEmpty_eq]; simp
  have htail : st.t = some a := by rw [h.tail, List.getLast?_concat]
  have hlive : m.live a = true := h.live a (List.mem_append_right l (List.mem_singleton_self a))
  have hpre : (m.buf a).pre = l.getLast? := by
    have hlinked : Seg m.next m.pre none (l ++ a :: []) none := h.linked
    rw [← Option.or_none (o := l.getLast?)]
    exact hlinked.neighbours.1
  have hsize : Words.sub 64 st.s 1 = l.length := by
    rw [h.size, List.length_append, List.length_singleton, Words.sub_eq (by omega) hlen,
      Nat.add_sub_cancel]
  let m' := (m.setNext l.getLast? none).setPre (some a) none
  have hcut : Seg m'.next m'.pre none l none ∧ Seg m'.next m'.pre none [a] none :=
    h.linked.cut h.nodup (fun b _ => by simp [m']) fun b _ => by simp [m']
  have hrep : Rep ⟨l.head?, l.getLast?, l.length⟩ m' l :=
    ⟨rfl, rfl, hcut.1, rfl, fun b hb => h.live b (List.mem_append_left [a] hb),
      (List.nodup_append'.mp h.nodup).1⟩
  refine ⟨_, m', ?_, hrep, fun b => by simp [m'], rfl, fun b hb => ⟨?_, rfl⟩⟩
  · simp only [popBuffer, hempty, htail, Memory.read_some hlive, bind, Except.bind, hpre, hsize]
    rcases List.eq_nil_or_concat' l with rfl | ⟨l, p, rfl⟩
    · simp only [List.getLast?_nil, Memory.modify_pre hlive]
      rfl
    · have hplive : m.live p = true := h.live p
        (List.mem_append_left [a] (List.mem_append_right l (List.mem_singleton_self p)))
      have halive : (m.setNext (some p) none).live a = true := hlive
      have hhead : st.h = (l ++ [p]).head? := by
        rw [h.head, List.head?_append_of_ne_nil _ (List.concat_ne_nil p l)]
      simp only [List.getLast?_concat, Memory.modify_next hplive, Memory.modify_pre halive, hhead,
        m']
      rfl
  · have hbl : l.getLast? ≠ some b := fun hl =>
      hb (List.mem_append_left [a] (List.mem_of_getLast? hl))
    have hba : some a ≠ some b := fun heq =>
      hb (List.mem_append_right l (by rw [Option.some.inj heq]; exact List.mem_singleton_self b))
    rw [Memory.buf_setPre _ _ hba, Memory.buf_setNext _ _ hbl]

/-! ## Whole chains -/

/-- `Clean` makes the stack a new one; the buffers stay in memory. -/
theorem Rep.clean_eq (h : Rep st m l) : st.clean = construct := by
  rw [clean, h.isEmpty_eq]
  cases l with
  | nil =>
    obtain ⟨hd, tl, size⟩ := st
    have hhead : hd = none := h.head
    have htail : tl = none := h.tail
    have hsize : size = 0 := h.size
    rw [hhead, htail, hsize]
    rfl
  | cons a l => rfl

/-- **`MarkStackInsert`** appends the other stack's chain.  The two chains have no buffer in common,
    and the other stack is empty afterwards. -/
theorem insert_spec {other : MarkStack} (h : Rep st m l) (hother : Rep other m l')
    (hdisj : l.Disjoint l') (hlen : (l ++ l').length < 2 ^ 64) : ∃ st' m',
      st.insert other m = .ok (st', construct, m') ∧ Rep st' m' (l ++ l') ∧
      (∀ a, m'.values a = m.values a ∧ (m'.buf a).count = (m.buf a).count) ∧
      m'.live = m.live ∧ Frame m m' (l ++ l') := by
  have hnodup : (l ++ l').Nodup := List.nodup_append'.mpr ⟨h.nodup, hother.nodup, hdisj⟩
  have hlive : ∀ a ∈ l ++ l', m.live a = true := fun a ha =>
    (List.mem_append.mp ha).elim (h.live a) (hother.live a)
  have hclean := hother.clean_eq
  rw [insert, hother.isEmpty_eq]
  cases l' with
  | nil =>
    refine ⟨st, m, ?_, by rw [List.append_nil]; exact h, fun _ => ⟨rfl, rfl⟩, rfl,
      fun _ _ => ⟨rfl, rfl⟩⟩
    rw [clean, hother.isEmpty_eq] at hclean
    rw [← hclean]
    rfl
  | cons b l' =>
    have hnil : decide (b :: l' = []) = false := by simp
    -- an empty stack takes the other one as it is; else the two are linked
    rcases List.eq_nil_or_concat' l with rfl | ⟨l, t, rfl⟩
    · refine ⟨other, m, ?_, hother, fun _ => ⟨rfl, rfl⟩, rfl, fun _ _ => ⟨rfl, rfl⟩⟩
      rw [hnil, h.head, hclean]
      rfl
    · let m' := (m.setNext (some t) (some b)).setPre (some b) (some t)
      have htlive : m.live t = true := hlive t (by simp)
      have hblive : (m.setNext (some t) (some b)).live b = true := hlive b (by simp)
      have hlinked : Seg m'.next m'.pre none ((l ++ [t]) ++ b :: l') none :=
        h.linked.join hother.linked hnodup (fun a _ => by simp [m']) fun a _ => by simp [m']
      have hsize : Words.add 64 st.s other.s = ((l ++ [t]) ++ b :: l').length := by
        rw [List.length_append] at hlen
        rw [h.size, hother.size, Words.add_eq hlen, @List.length_append _ (l ++ [t])]
      have hhead : st.h = ((l ++ [t]) ++ b :: l').head? := by
        rw [h.head, List.head?_append_of_ne_nil _ (List.concat_ne_nil t l)]
      have htail : other.t = ((l ++ [t]) ++ b :: l').getLast? := by
        rw [hother.tail, List.getLast?_append_of_ne_nil _ (List.cons_ne_nil b l')]
      have hrep : Rep ⟨((l ++ [t]) ++ b :: l').head?, ((l ++ [t]) ++ b :: l').getLast?,
          ((l ++ [t]) ++ b :: l').length⟩ m' ((l ++ [t]) ++ b :: l') :=
        ⟨rfl, rfl, hlinked, rfl, hlive, hnodup⟩
      refine ⟨_, m', ?_, hrep, fun a => by simp [m'], rfl, fun a ha => ⟨?_, rfl⟩⟩
      · have hsome : st.h = some ((l ++ [t]).head (List.concat_ne_nil t l)) := by
          rw [h.head, List.head?_eq_some_head]
        rw [hnil]
        simp only [hsome]
        rw [← hsome, ← hsize, ← hhead, ← htail]
        simp only [h.tail, hother.head, List.getLast?_concat, List.head?_cons, bind, Except.bind,
          Memory.modify_next htlive, Memory.modify_pre hblive, hclean, m']
        rfl
      · have hat : some t ≠ some a := fun heq => ha (by rw [← Option.some.inj heq]; simp)
        have hab : some b ≠ some a := fun heq => ha (by rw [← Option.some.inj heq]; simp)
        rw [Memory.buf_setPre _ _ hab, Memory.buf_setNext _ _ hat]

/-- The loop of `Split` on a chain: its first `n` buffers are passed, and the link behind the last
    of them is cut. -/
theorem splitLoop_spec {n : Nat} {p : Option Nat} (hn : 0 < n) (hl : l ≠ [])
    (hhead : st.h = l.head?) (htail : st.t = l.getLast?) (hsize : st.s = l.length)
    (hlen : l.length < 2 ^ 64) (hlinked : Seg m.next m.pre p l none)
    (hlive : ∀ a ∈ l, m.live a = true) : ∃ m',
      splitLoop n st m = .ok (⟨(l.drop n).head?, (l.drop n).getLast?, (l.drop n).length⟩, m') ∧
      (∀ a, m'.next a = if (l.take n).getLast? = some a then none else m.next a) ∧
      (∀ a, m'.pre a = if (l.drop n).head? = some a then none else m.pre a) ∧
      (∀ a, m'.values a = m.values a ∧ (m'.buf a).count = (m.buf a).count) ∧
      m'.live = m.live ∧ Frame m m' l := by
  induction l generalizing n p st with
  | nil => exact absurd rfl hl
  | cons a l ih =>
    obtain ⟨n, rfl⟩ : ∃ k, n = k + 1 := ⟨n - 1, by omega⟩
    obtain ⟨-, hnext, hrest⟩ := hlinked
    rw [Option.or_none] at hnext
    have halive : m.live a = true := hlive a List.mem_cons_self
    have hsub : Words.sub 64 st.s 1 = l.length := by
      rw [hsize, Words.sub_eq (by simp) hlen, List.length_cons, Nat.add_sub_cancel]
    have hnext' : (m.buf a).next = l.head? := hnext
    rw [List.head?_cons] at hhead
    rw [splitLoop, hhead]
    simp only [Memory.read_some halive, bind, Except.bind, hnext', hsub]
    by_cases hlast : n = 0
    · -- the last buffer to split off
      subst hlast
      let m' := (m.setPre l.head? none).setNext (some a) none
      have hfacts : (∀ b, m'.next b = if (List.take 1 (a :: l)).getLast? = some b then none
          else m.next b) ∧ (∀ b, m'.pre b = if l.head? = some b then none else m.pre b) ∧
          (∀ b, m'.values b = m.values b ∧ (m'.buf b).count = (m.buf b).count) ∧
          m'.live = m.live ∧ Frame m m' (a :: l) := by
        refine ⟨fun b => by simp [m'], fun b => by simp [m'], fun b => by simp [m'], rfl,
          fun b hb => ⟨?_, rfl⟩⟩
        have hba : some a ≠ some b := fun heq =>
          hb (by rw [Option.some.inj heq]; exact List.mem_cons_self)
        have hbl : l.head? ≠ some b := fun hl =>
          hb (List.mem_cons_of_mem a (List.mem_of_head? hl))
        rw [Memory.buf_setNext _ _ hba, Memory.buf_setPre _ _ hbl]
      refine ⟨m', ?_, hfacts⟩
      cases l with
      | nil =>
        simp only [List.head?_nil, if_pos, Memory.modify_next halive]
        rfl
      | cons b l =>
        have hblive : m.live b = true := hlive b (by simp)
        have halive' : (m.setPre (some b) none).live a = true := halive
        simp only [List.head?_cons, if_pos, Memory.modify_pre hblive, Memory.modify_next halive',
          splitLoop, htail, List.getLast?_cons_cons, m']
        rfl
    · simp only [if_neg hlast]
      cases l with
      | nil =>
        -- the chain is shorter than asked for
        refine ⟨m, by simp, fun b => ?_, fun b => by simp, fun b => ⟨rfl, rfl⟩, rfl,
          fun b _ => ⟨rfl, rfl⟩⟩
        rw [List.take_succ_cons, List.take_nil, List.getLast?_singleton]
        split
        case isTrue heq =>
          rw [← Option.some.inj heq]
          exact hnext
        case isFalse => rfl
      | cons b l =>
        obtain ⟨m', hres, hnexts, hpres, hvalues, hlives, hframe⟩ := @ih
          ⟨some b, st.t, (b :: l).length⟩ n _ (by omega) (List.cons_ne_nil b l) rfl
          (by rw [htail, List.getLast?_cons_cons]) rfl (by simp at hlen ⊢; omega) hrest
          (fun c hc => hlive c (List.mem_cons_of_mem a hc))
        have htake : (List.take (n + 1) (a :: b :: l)).getLast? =
            (List.take n (b :: l)).getLast? := by
          obtain ⟨k, rfl⟩ : ∃ k, n = k + 1 := ⟨n - 1, by omega⟩
          rw [List.take_succ_cons, List.take_succ_cons, List.getLast?_cons_cons]
        refine ⟨m', ?_, fun c => by rw [htake]; exact hnexts c, hpres, hvalues, hlives,
          fun c hc => hframe c fun hmem => hc (List.mem_cons_of_mem a hmem)⟩
        simp only [List.head?_cons, List.drop_succ_cons, reduceCtorEq, if_false]
        exact hres

/-- **`MarkStackSplit`** splits the first `n` buffers off.  The walk to the cut reads links only; at
    the cut two links are written, one of each part. -/
theorem split_spec (h : Rep st m l) (n : Nat) (hlen : l.length < 2 ^ 64) : ∃ st' m',
    st.split m n = .ok (st', m', (l.take n).head?) ∧ Rep st' m' (l.drop n) ∧
    Seg m'.next m'.pre none (l.take n) none ∧
    (∀ a, m'.values a = m.values a ∧ (m'.buf a).count = (m.buf a).count) ∧
    m'.live = m.live ∧ Frame m m' l := by
  rw [split]
  by_cases hnone : n = 0 ∨ st.s = 0
  · rw [if_pos hnone]
    have htake : l.take n = [] := by
      rcases hnone with rfl | hzero
      · rfl
      · rw [h.size] at hzero
        rw [List.length_eq_zero_iff.mp hzero, List.take_nil]
    have hdrop : l.drop n = l := by
      have := List.take_append_drop n l
      rwa [htake, List.nil_append] at this
    rw [htake, hdrop]
    exact ⟨st, m, rfl, h, trivial, fun _ => ⟨rfl, rfl⟩, rfl, fun _ _ => ⟨rfl, rfl⟩⟩
  · rw [if_neg hnone]
    obtain ⟨hn, hs⟩ := not_or.mp hnone
    have hl : l ≠ [] := fun hnil => hs (by rw [h.size, hnil]; rfl)
    obtain ⟨m', hres, hnext, hpre, hvalues, hlive, hframe⟩ := splitLoop_spec
      (Nat.pos_of_ne_zero hn) hl h.head h.tail h.size hlen h.linked h.live
    have hlinked := h.linked
    have hnodup := h.nodup
    rw [← List.take_append_drop n l] at hlinked hnodup
    obtain ⟨hfirst, hrest⟩ := hlinked.cut hnodup (fun a _ => hnext a) fun a _ => hpre a
    refine ⟨⟨(l.drop n).head?, (l.drop n).getLast?, (l.drop n).length⟩, m', ?_,
      ⟨rfl, rfl, hrest, rfl, fun a ha => ?_, h.nodup.sublist (List.drop_sublist n l)⟩, hfirst,
      hvalues, hlive, hframe⟩
    · simp only [hres, bind, Except.bind]
      rw [h.head, List.head?_take, if_neg hn]
    · rw [hlive]
      exact h.live a (List.mem_of_mem_drop ha)

/-- **`MarkStackConstructFromBuffer`** takes a chain over.  The loop walks to the end of the chain,
    counts the buffers, and leaves the tail at the last one. -/
theorem countBuffers_spec {fuel : Nat} {p : Option Nat} (hfuel : l.length ≤ fuel)
    (hlen : st.s + l.length < 2 ^ 64) (hlinked : Seg m.next m.pre p l none)
    (hlive : ∀ a ∈ l, m.live a = true) : countBuffers m fuel l.head? st =
      .ok { st with s := st.s + l.length, t := l.getLast?.or st.t } := by
  induction l generalizing fuel p st with
  | nil => cases fuel <;> rfl
  | cons a l ih =>
    obtain ⟨-, hnext, hrest⟩ := hlinked
    rw [Option.or_none] at hnext
    have hnext' : (m.buf a).next = l.head? := hnext
    have halive : m.live a = true := hlive a List.mem_cons_self
    simp only [List.length_cons] at hlen hfuel ⊢
    have hadd : Words.add 64 st.s 1 = st.s + 1 := Words.add_eq (by omega)
    cases fuel with
    | zero => exact absurd hfuel (by omega)
    | succ fuel =>
      rw [List.head?_cons, countBuffers]
      simp only [Memory.read_some halive, bind, Except.bind, hadd, hnext']
      rw [ih (by omega) (by split <;> (simp only; omega)) hrest
        (fun b hb => hlive b (List.mem_cons_of_mem a hb))]
      cases l with
      | nil => rfl
      | cons b l =>
        have hsome : ∀ x : Option Nat, (b :: l).getLast?.or x = (b :: l).getLast? := fun x => by
          rw [List.getLast?_eq_some_getLast (List.cons_ne_nil b l)]
          rfl
        simp only [List.head?_cons, reduceCtorEq, if_false, List.getLast?_cons_cons, hsome,
          Nat.add_assoc, Nat.add_comm 1]

/-- The constructor from a chain of buffers counts them with its loop, and the stack has all of
    them. -/
theorem constructFromBuffer_spec {fuel : Nat} (hfuel : l.length ≤ fuel)
    (hlen : l.length < 2 ^ 64) (hlinked : Seg m.next m.pre none l none)
    (hlive : ∀ a ∈ l, m.live a = true) (hnodup : l.Nodup) :
    ∃ st', constructFromBuffer m fuel l.head? = .ok st' ∧ Rep st' m l := by
  rw [constructFromBuffer, countBuffers_spec hfuel (by simpa [construct] using hlen) hlinked hlive]
  exact ⟨_, rfl, rfl, by simp [construct], hlinked, by simp [construct], hlive, hnodup⟩

end Rep

end MarkStack

end CangjieRuntime.Gc
