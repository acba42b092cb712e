import Mathlib.Algebra.Group.Nat.Defs
import Mathlib.Data.List.Perm.Basic

/-!
# Calls that may fail to return

A safe Rust call either returns a value or stops: an index or a range lies outside
its slice, checked arithmetic overflows, a divisor is zero, a value that is not there is
unwrapped, the code panics, or a loop never ends. `Exec` records which of these happened, so
that an equation `call = .ok value` says at once that the call terminates, that it stays
inside its buffers and what it answers.

Loops are written with `loop`, which repeats a step on an explicit state. The fuel
argument bounds the number of rounds; running out is the fault `diverge`, and the
rule `loop_returns` turns a loop invariant and a decreasing measure into a proof
that the loop ends with its postcondition.
-/

namespace MerlionKernel.Rust

universe u v

/-- The ways a call can stop without returning. -/
inductive Fault
  | index
  | slice
  | overflow
  | divide
  | unwrap
  | panicked
  | diverge
  deriving DecidableEq

/-- A call that returns a value or stops with a fault. -/
abbrev Exec (α : Type u) := Except Fault α

variable {α β σ : Type u} {ε : Type v}

@[simp] theorem ok_bind (a : α) (f : α → Except ε β) : ((.ok a : Except ε α) >>= f) = f a := rfl

@[simp] theorem error_bind (e : ε) (f : α → Except ε β) :
    ((.error e : Except ε α) >>= f) = .error e := rfl

@[simp] theorem pure_eq_ok (a : α) : (pure a : Except ε α) = .ok a := rfl

/-- A sequence of two calls returns exactly when both do. -/
theorem bind_eq_ok_iff {m : Except ε α} {f : α → Except ε β} {b : β} :
    m >>= f = .ok b ↔ ∃ a, m = .ok a ∧ f a = .ok b := by
  cases m with
  | error e => simp
  | ok a => simp

/-- A checked operation returns exactly when its check passes. -/
theorem checked_eq_ok_iff {p : Prop} [Decidable p] {a b : α} {e : ε} :
    (if p then .ok a else .error e : Except ε α) = .ok b ↔ p ∧ a = b := by
  by_cases hp : p
  · simp [hp]
  · simp [hp]

/-! ### Postconditions -/

/-- The call returns, and its value satisfies `post`. -/
def Returns (m : Exec α) (post : α → Prop) : Prop := ∃ a, m = .ok a ∧ post a

theorem Returns.ok {a : α} {post : α → Prop} (h : post a) : Returns (.ok a) post :=
  ⟨a, rfl, h⟩

theorem Returns.mono {m : Exec α} {post post' : α → Prop} (h : Returns m post)
    (himp : ∀ a, post a → post' a) : Returns m post' := by
  obtain ⟨a, hm, ha⟩ := h
  exact ⟨a, hm, himp a ha⟩

theorem Returns.bind {m : Exec α} {f : α → Exec β} {mid : α → Prop} {post : β → Prop}
    (hm : Returns m mid) (hf : ∀ a, mid a → Returns (f a) post) :
    Returns (m >>= f) post := by
  obtain ⟨a, rfl, ha⟩ := hm
  exact hf a ha

/-- What a call is known to return is what it returned. -/
theorem Returns.elim {m : Exec α} {post : α → Prop} {a : α} (h : Returns m post)
    (hm : m = .ok a) : post a := by
  obtain ⟨a', hm', ha'⟩ := h
  obtain rfl : a = a' := by simpa [hm] using hm'
  exact ha'

/-- A call known to return exactly `a` is equal to it. -/
theorem Returns.eq_ok {m : Exec α} {a : α} (h : Returns m (· = a)) : m = .ok a := by
  obtain ⟨a', hm, rfl⟩ := h
  exact hm

/-! ### Arithmetic -/

/-- `a - b` on unsigned integers, which stops below zero. -/
def sub (a b : Nat) : Exec Nat := if b ≤ a then .ok (a - b) else .error .overflow

theorem sub_eq_ok {a b : Nat} (h : b ≤ a) : sub a b = .ok (a - b) := if_pos h

theorem sub_eq_ok_iff {a b c : Nat} : sub a b = .ok c ↔ b ≤ a ∧ a - b = c := checked_eq_ok_iff

/-- The result of an addition or a multiplication on `u64` or `usize`, which stops on
overflow. -/
def u64 (n : Nat) : Exec Nat := if n < 2 ^ 64 then .ok n else .error .overflow

theorem u64_eq_ok {n : Nat} (h : n < 2 ^ 64) : u64 n = .ok n := if_pos h

theorem u64_eq_ok_iff {n m : Nat} : u64 n = .ok m ↔ n < 2 ^ 64 ∧ n = m := checked_eq_ok_iff

theorem u64_eq_error {n : Nat} (h : 2 ^ 64 ≤ n) : u64 n = .error .overflow :=
  if_neg (Nat.not_lt.mpr h)

/-- The result of an addition on `u32`, which stops on overflow. -/
def u32 (n : Nat) : Exec Nat := if n < 2 ^ 32 then .ok n else .error .overflow

theorem u32_eq_ok {n : Nat} (h : n < 2 ^ 32) : u32 n = .ok n := if_pos h

theorem u32_eq_ok_iff {n m : Nat} : u32 n = .ok m ↔ n < 2 ^ 32 ∧ n = m := checked_eq_ok_iff

/-- The result of an operation on `i64`, which stops on overflow. -/
def i64 (n : Int) : Exec Int :=
  if -9223372036854775808 ≤ n ∧ n < 9223372036854775808 then .ok n else .error .overflow

/-- `a / b` on unsigned integers, which stops on a zero divisor. -/
def div (a b : Nat) : Exec Nat := if b = 0 then .error .divide else .ok (a / b)

theorem div_eq_ok {a b : Nat} (h : b ≠ 0) : div a b = .ok (a / b) := if_neg h

/-- `a % b` on unsigned integers, which stops on a zero divisor. -/
def rem (a b : Nat) : Exec Nat := if b = 0 then .error .divide else .ok (a % b)

/-- `a.wrapping_sub(b)` on `usize`. -/
def wrappingSub (a b : Nat) : Nat := if b ≤ a then a - b else a + 2 ^ 64 - b

theorem wrappingSub_of_le {a b : Nat} (h : b ≤ a) : wrappingSub a b = a - b := if_pos h

/-! ### Slices -/

/-- `xs[i]`, which stops past the end. -/
def index (xs : List α) (i : Nat) : Exec α :=
  match xs[i]? with
  | some a => .ok a
  | none => .error .index

theorem index_eq_ok {xs : List α} {i : Nat} (h : i < xs.length) : index xs i = .ok xs[i] := by
  simp [index, List.getElem?_eq_getElem h]

theorem index_eq_ok_iff {xs : List α} {i : Nat} {a : α} :
    index xs i = .ok a ↔ xs[i]? = some a := by
  unfold index
  cases xs[i]? with
  | none => simp
  | some b => simp

/-- What lies around an element, whatever is put in its place. -/
theorem exists_around {xs : List α} {i : Nat} {a : α} (h : xs[i]? = some a) :
    ∃ l r, xs = l ++ a :: r ∧ l.length = i ∧ (∀ b, xs.set i b = l ++ b :: r) ∧
      xs.eraseIdx i = l ++ r := by
  obtain ⟨hlt, rfl⟩ := List.getElem?_eq_some_iff.mp h
  refine ⟨xs.take i, xs.drop (i + 1), ?_, List.length_take_of_le (Nat.le_of_lt hlt),
    fun b => ?_, ?_⟩
  · rw [List.getElem_cons_drop, List.take_append_drop]
  · rw [List.set_eq_take_append_cons_drop, if_pos hlt]
  · rw [List.eraseIdx_eq_take_drop_succ]

/-- Replacing an element by one with the same key leaves the keys as they are. -/
theorem map_set_of_same {xs : List α} {i : Nat} {old new : α} {key : α → β}
    (h : xs[i]? = some old) (hkey : key new = key old) : (xs.set i new).map key = xs.map key := by
  apply List.ext_getElem?
  intro j
  rw [List.getElem?_map, List.getElem?_map]
  by_cases hj : j = i
  · subst hj
    rw [List.getElem?_set_self (List.getElem?_eq_some_iff.mp h).1, h]
    exact congrArg some hkey
  · rw [List.getElem?_set_ne (Ne.symm hj)]

/-- `&xs[lo..hi]`, which stops when the range is not inside the slice. -/
def slice (xs : List α) (lo hi : Nat) : Exec (List α) :=
  if lo ≤ hi ∧ hi ≤ xs.length then .ok ((xs.drop lo).take (hi - lo)) else .error .slice

theorem slice_eq_ok {xs : List α} {lo hi : Nat} (h : lo ≤ hi) (h' : hi ≤ xs.length) :
    slice xs lo hi = .ok ((xs.drop lo).take (hi - lo)) := by
  simp [slice, h, h']

theorem length_of_slice {xs ys : List α} {lo hi : Nat} (h : slice xs lo hi = .ok ys) :
    ys.length = hi - lo := by
  unfold slice at h
  split at h
  · cases h
    rw [List.length_take, List.length_drop]
    omega
  · cases h

/-- `xs[i] = a`, which stops past the end. -/
def store (xs : List α) (i : Nat) (a : α) : Exec (List α) :=
  if i < xs.length then .ok (xs.set i a) else .error .index

theorem store_eq_ok {xs : List α} {i : Nat} (a : α) (h : i < xs.length) :
    store xs i a = .ok (xs.set i a) := by
  simp [store, h]

theorem drop_set_self {xs : List α} {i : Nat} (h : i < xs.length) (a : α) :
    (xs.set i a).drop i = a :: xs.drop (i + 1) := by
  rw [List.drop_eq_getElem_cons (by rwa [List.length_set]), List.getElem_set_self,
    List.drop_set_of_lt (Nat.lt_succ_self i)]

/-- Overwrite the elements of `xs` from position `lo` on by those of `src`. -/
def splice (xs : List α) (lo : Nat) (src : List α) : List α :=
  xs.take lo ++ src ++ xs.drop (lo + src.length)

/-- `xs[lo..hi].copy_from_slice(src)`, which stops when the range is not inside the
slice or the lengths differ. -/
def copyFromSlice (xs : List α) (lo hi : Nat) (src : List α) : Exec (List α) :=
  if lo ≤ hi ∧ hi ≤ xs.length ∧ src.length = hi - lo then .ok (splice xs lo src)
  else .error .slice

theorem copyFromSlice_eq_ok {xs : List α} {lo hi : Nat} {src : List α}
    (h : hi = lo + src.length) (h' : hi ≤ xs.length) :
    copyFromSlice xs lo hi src = .ok (splice xs lo src) := by
  subst h
  simp [copyFromSlice, h']

@[simp] theorem length_splice {xs : List α} {lo : Nat} {src : List α}
    (h : lo + src.length ≤ xs.length) : (splice xs lo src).length = xs.length := by
  simp only [splice, List.length_append, List.length_take, List.length_drop]
  omega

/-- The elements of a spliced slice: the copied ones inside the range, the old ones
outside it. -/
theorem getD_splice {xs : List α} {lo : Nat} {src : List α}
    (h : lo + src.length ≤ xs.length) (j : Nat) (d : α) :
    (splice xs lo src).getD j d =
      if lo ≤ j ∧ j < lo + src.length then src.getD (j - lo) d else xs.getD j d := by
  have hlo : (xs.take lo).length = lo := by rw [List.length_take]; omega
  simp only [splice, List.getD_eq_getElem?_getD, List.getElem?_append, List.length_append, hlo]
  by_cases hj : j < lo
  · simp [hj, show ¬ lo ≤ j by omega, show j < lo + src.length by omega]
  · by_cases hj' : j < lo + src.length
    · simp [hj, hj', show lo ≤ j by omega]
    · rw [if_neg hj', if_neg (by omega), List.getElem?_drop,
        show lo + src.length + (j - (lo + src.length)) = j by omega]

/-- `f(&mut xs[lo..hi])`, which stops when the range is not inside the slice. -/
def modifySlice (xs : List α) (lo hi : Nat) (f : List α → Exec (List α)) : Exec (List α) := do
  let part ← slice xs lo hi
  let part ← f part
  return splice xs lo part

theorem modifySlice_eq_ok {xs ys : List α} {lo hi : Nat} {f : List α → Exec (List α)}
    (h : lo ≤ hi) (h' : hi ≤ xs.length) (hf : f ((xs.drop lo).take (hi - lo)) = .ok ys) :
    modifySlice xs lo hi f = .ok (splice xs lo ys) := by
  rw [modifySlice, slice_eq_ok h h', ok_bind, hf]
  rfl

/-- `xs.swap(i, j)`, which stops past the end. -/
def swap (xs : List α) (i j : Nat) : Exec (List α) := do
  let a ← index xs i
  let b ← index xs j
  return (xs.set i b).set j a

theorem swap_eq_ok {xs : List α} {i j : Nat} (hi : i < xs.length) (hj : j < xs.length) :
    swap xs i j = .ok ((xs.set i xs[j]).set j xs[i]) := by
  rw [swap, index_eq_ok hi, ok_bind, index_eq_ok hj]
  rfl

/-! ### Vectors

The accesses at a known split of the vector. -/

/-- `xs.pop().unwrap()`, which returns the last element and stops on an empty vector. -/
def popUnwrap (xs : List α) : Exec (α × List α) :=
  match xs.getLast? with
  | some a => .ok (a, xs.dropLast)
  | none => .error .unwrap

@[simp] theorem popUnwrap_concat (xs : List α) (a : α) : popUnwrap (xs ++ [a]) = .ok (a, xs) := by
  simp [popUnwrap]

/-- Exchanging an element with the last one brings it to the end. -/
theorem swap_last (xs : List α) (z : α) {i : Nat} (hi : i ≤ xs.length) :
    ∃ a, (xs ++ [z])[i]? = some a ∧ swap (xs ++ [z]) i xs.length = .ok (xs.set i z ++ [a]) ∧
      (xs ++ [z]).Perm (a :: xs.set i z) := by
  rcases Nat.lt_or_eq_of_le hi with hlt | rfl
  · refine ⟨xs[i], by simp [List.getElem?_append_left hlt], ?_, ?_⟩
    · rw [swap_eq_ok (by simp; omega) (by simp)]
      simp [List.getElem_append_left hlt, hlt]
    · have hset := List.set_perm_cons_eraseIdx hlt z
      have hget := List.getElem_cons_eraseIdx_perm hlt
      have hboth : (z :: xs).Perm (xs[i] :: z :: xs.eraseIdx i) :=
        (hget.symm.cons z).trans (.swap _ _ _)
      exact (List.perm_append_singleton z xs).trans (hboth.trans (hset.symm.cons _))
  · rw [List.set_eq_of_length_le (Nat.le_refl _)]
    refine ⟨z, by simp, ?_, List.perm_append_singleton z xs⟩
    rw [swap_eq_ok (by simp) (by simp)]
    simp

/-- `xs.insert(i, a)`, which stops past the end. -/
def insertAt (xs : List α) (i : Nat) (a : α) : Exec (List α) :=
  if i ≤ xs.length then .ok (xs.take i ++ a :: xs.drop i) else .error .index

/-- `xs.remove(i)`, which returns the element and stops past the end. -/
def removeAt (xs : List α) (i : Nat) : Exec (α × List α) := do
  let a ← index xs i
  return (a, xs.eraseIdx i)

theorem index_append_cons (l r : List α) (a : α) : index (l ++ a :: r) l.length = .ok a := by
  simp [index]

theorem store_append_cons (l r : List α) (a b : α) :
    store (l ++ a :: r) l.length b = .ok (l ++ b :: r) := by
  simp [store]

theorem slice_append_right (l r : List α) :
    slice (l ++ r) l.length (l ++ r).length = .ok r := by
  simp [slice]

theorem insertAt_eq_ok {xs : List α} {i : Nat} (a : α) (h : i ≤ xs.length) :
    insertAt xs i a = .ok (xs.take i ++ a :: xs.drop i) := if_pos h

theorem insertAt_append (l r : List α) (a : α) :
    insertAt (l ++ r) l.length a = .ok (l ++ a :: r) := by
  simp [insertAt]

theorem removeAt_append_cons (l r : List α) (a : α) :
    removeAt (l ++ a :: r) l.length = .ok (a, l ++ r) := by
  simp [removeAt, index_append_cons, List.eraseIdx_append_of_length_le]

/-! ### Loops -/

/-- What one round of a loop decides: go on from a new state, or leave with a result. -/
inductive ControlFlow (σ β : Type u)
  | again (state : σ)
  | stop (result : β)

/-- What is known after a round: `again` of the new state, or `stop` of the result. -/
abbrev ControlFlow.Post (again : σ → Prop) (stop : β → Prop) : ControlFlow σ β → Prop
  | .again s => again s
  | .stop b => stop b

/-- Repeat `step` until it leaves, for at most `fuel` rounds. -/
def loop (step : σ → Exec (ControlFlow σ β)) : Nat → σ → Exec β
  | 0, _ => .error .diverge
  | fuel + 1, s => do
    match ← step s with
    | .again next => loop step fuel next
    | .stop result => pure result

theorem loop_again {step : σ → Exec (ControlFlow σ β)} {s s' : σ} (h : step s = .ok (.again s'))
    (fuel : Nat) : loop step (fuel + 1) s = loop step fuel s' := by
  simp [loop, h]

theorem loop_stop {step : σ → Exec (ControlFlow σ β)} {s : σ} {b : β} (h : step s = .ok (.stop b))
    (fuel : Nat) : loop step (fuel + 1) s = .ok b := by
  simp [loop, h]

/-- A loop whose rounds keep `inv` and lower `measure` until they leave with `post`
returns a result satisfying `post`. -/
theorem loop_returns {step : σ → Exec (ControlFlow σ β)} (inv : σ → Prop) (measure : σ → Nat)
    {post : β → Prop}
    (hstep : ∀ s, inv s →
      Returns (step s) (ControlFlow.Post (fun s' => inv s' ∧ measure s' < measure s) post))
    {fuel : Nat} {s : σ} (hs : inv s) (hfuel : measure s < fuel) :
    Returns (loop step fuel s) post := by
  induction fuel generalizing s with
  | zero => omega
  | succ fuel ih =>
    obtain ⟨flow, hflow, hpost⟩ := hstep s hs
    cases flow with
    | again s' =>
      rw [loop_again hflow]
      exact ih hpost.1 (by have := hpost.2; omega)
    | stop b =>
      rw [loop_stop hflow]
      exact .ok hpost

/-- A loop that returns has kept `inv` in all its rounds, and its last round led from
`inv` to `post`. -/
theorem loop_invariant {step : σ → Exec (ControlFlow σ β)} (inv : σ → Prop) {post : β → Prop}
    (hagain : ∀ s s', inv s → step s = .ok (.again s') → inv s')
    (hstop : ∀ s b, inv s → step s = .ok (.stop b) → post b)
    {fuel : Nat} {s : σ} {b : β} (hs : inv s) (hloop : loop step fuel s = .ok b) : post b := by
  induction fuel generalizing s with
  | zero => cases hloop
  | succ fuel ih =>
    obtain ⟨flow, hflow, hrest⟩ := bind_eq_ok_iff.mp hloop
    cases flow with
    | again s' => exact ih (hagain s s' hs hflow) hrest
    | stop b' =>
      cases hrest
      exact hstop s b hs hflow

/-- The call stops with no fault, but it may never end. -/
def NoPanic (m : Exec α) : Prop := ∀ fault, m = .error fault → fault = .diverge

theorem NoPanic.ok (a : α) : NoPanic (.ok a) := nofun

theorem NoPanic.bind {m : Exec α} {f : α → Exec β} (hm : NoPanic m) (hf : ∀ a, NoPanic (f a)) :
    NoPanic (m >>= f) := by
  intro fault h
  cases m with
  | ok a => exact hf a fault h
  | error e =>
    cases h
    exact hm _ rfl

theorem noPanic_loop {step : σ → Exec (ControlFlow σ β)} (hstep : ∀ s, NoPanic (step s))
    (fuel : Nat) (s : σ) : NoPanic (loop step fuel s) := by
  induction fuel generalizing s with
  | zero => exact fun _ h => (Except.error.inj h).symm
  | succ fuel ih =>
    refine (hstep s).bind fun flow => ?_
    cases flow with
    | again s' => exact ih s'
    | stop b => exact .ok b

/-- A `for` loop over `xs` whose body carries `inv` from the elements visited so far
to one more establishes `inv` for all of `xs`. -/
theorem foldlM_returns {f : σ → α → Exec σ} (inv : List α → σ → Prop) (xs : List α)
    (hstep : ∀ visited a rest s, xs = visited ++ a :: rest → inv visited s →
      Returns (f s a) (inv (visited ++ [a])))
    {s : σ} (hs : inv [] s) : Returns (xs.foldlM f s) (inv xs) := by
  -- The induction runs over what is left to visit, with the visited part as parameter.
  have hgen : ∀ rest visited s, xs = visited ++ rest → inv visited s →
      Returns (rest.foldlM f s) (inv xs) := by
    intro rest
    induction rest with
    | nil =>
      intro visited s hxs hs
      rw [List.append_nil] at hxs
      subst hxs
      exact .ok hs
    | cons a rest ih =>
      intro visited s hxs hs
      rw [List.foldlM_cons]
      refine (hstep visited a rest s hxs hs).bind fun s' hs' => ?_
      exact ih (visited ++ [a]) s' (by simp [hxs]) hs'
  exact hgen xs [] s (by simp) hs

/-- The rule for `for i in lo..lo + n`, with the invariant indexed by the next value of
the loop variable. -/
theorem foldlM_range'_returns {f : σ → Nat → Exec σ} (inv : Nat → σ → Prop) (lo n : Nat)
    (hstep : ∀ i, lo ≤ i → i < lo + n → ∀ s, inv i s → Returns (f s i) (inv (i + 1)))
    {s : σ} (hs : inv lo s) : Returns ((List.range' lo n).foldlM f s) (inv (lo + n)) := by
  induction n with
  | zero => exact .ok hs
  | succ n ih =>
    rw [List.range'_concat, Nat.one_mul, List.foldlM_append]
    refine (ih fun i hlo hi => hstep i hlo (by omega)).bind fun s' hs' => ?_
    obtain ⟨t, ht, hinv⟩ := hstep (lo + n) (by omega) (by omega) s' hs'
    exact ⟨t, by simp [ht], hinv⟩

/-- The rule for `for i in 0..n`. -/
theorem foldlM_range_returns {f : σ → Nat → Exec σ} (inv : Nat → σ → Prop) (n : Nat)
    (hstep : ∀ i < n, ∀ s, inv i s → Returns (f s i) (inv (i + 1))) {s : σ} (hs : inv 0 s) :
    Returns ((List.range n).foldlM f s) (inv n) := by
  rw [List.range_eq_range']
  have hrun := foldlM_range'_returns inv 0 n (fun i _ hi => hstep i (by omega)) hs
  rwa [Nat.zero_add] at hrun

end MerlionKernel.Rust
