import MerlionKernel.Rust.Bytes
import MerlionKernel.Rust.Cursor

/-!
# Readers of a slice

A decoder of a binary format holds a slice and a position. Each part of the format moves the
position on and gives a value, or ends the decoder with an error; an access outside the slice is a
fault. Parts are put together in a `do` block.

Two things are shown of a reader. It *parses* some bytes as a value when it reads that value
wherever those bytes stand, whatever follows them. It is *total* when it never stops with a fault
and never leaves the slice.
-/

namespace MerlionKernel.Rust

/-- From the slice and a position: a value and the position behind it, or an error. -/
def Reader (ε α : Type) : Type := Buffer → Nat → Exec (Except ε (α × Nat))

namespace Reader

variable {ε α β : Type}

instance : Monad (Reader ε) where
  pure a := fun _ pos => .ok (.ok (a, pos))
  bind r f := fun data pos => do
    match ← r data pos with
    | .error e => return .error e
    | .ok (a, pos) => f a data pos

/-- Leave the decoder with an error. -/
def fail (e : ε) : Reader ε α := fun _ _ => .ok (.error e)

/-- A decoder of `&data[pos..]` that says how many bytes it consumed. -/
def rest (decode : Bytes → Exec (Except ε (α × Nat))) : Reader ε α := fun data pos => do
  match ← decode (← slice data.1 pos data.1.length) with
  | .error e => return .error e
  | .ok (a, n) => return .ok (a, pos + n)

/-- `for _ in 0..n`, collecting what is read. -/
def times (r : Reader ε α) : Nat → Reader ε (List α)
  | 0 => pure []
  | n + 1 => do
    let a ← r
    let as ← r.times n
    return a :: as

theorem bind_of_ok {r : Reader ε α} {f : α → Reader ε β} {data : Buffer} {pos pos' : Nat} {a : α}
    (h : r data pos = .ok (.ok (a, pos'))) : (r >>= f) data pos = f a data pos' := by
  show (r data pos >>= fun _ => _) = _
  rw [h]
  rfl

theorem bind_of_error {r : Reader ε α} {f : α → Reader ε β} {data : Buffer} {pos : Nat} {e : ε}
    (h : r data pos = .ok (.error e)) : (r >>= f) data pos = .ok (.error e) := by
  show (r data pos >>= fun _ => _) = _
  rw [h]
  rfl

/-! ### Parsing known bytes -/

/-- Wherever the bytes stand, the reader reads the value and moves behind them. -/
def Parses (r : Reader ε α) (bs : Bytes) (a : α) : Prop :=
  ∀ (data : Buffer) (rest : Bytes) (pos : Nat), pos ≤ data.1.length →
    data.1.drop pos = bs ++ rest → r data pos = .ok (.ok (a, pos + bs.length))

theorem Parses.pure (a : α) : Parses (pure a : Reader ε α) [] a := fun _ _ _ _ _ => rfl

theorem Parses.bind {r : Reader ε α} {f : α → Reader ε β} {bs bs' : Bytes} {a : α} {b : β}
    (hr : Parses r bs a) (hf : Parses (f a) bs' b) : Parses (r >>= f) (bs ++ bs') b := by
  intro data rest pos hpos hdrop
  rw [List.append_assoc] at hdrop
  rw [bind_of_ok (hr data _ pos hpos hdrop),
    hf data rest _ (le_of_drop hpos hdrop) (drop_add_of_drop hdrop), List.length_append,
    Nat.add_assoc]

/-- The last part, whose value is put into the result. -/
theorem Parses.map {r : Reader ε α} {g : α → β} {bs : Bytes} {a : α} (hr : Parses r bs a) :
    Parses (r >>= fun a => Pure.pure (g a)) bs (g a) := by
  rw [← List.append_nil bs]
  exact hr.bind (Parses.pure (g a))

/-- Values are read one after another. -/
theorem Parses.times {r : Reader ε α} {enc : α → Bytes} {as : List α}
    (hr : ∀ a ∈ as, Parses r (enc a) a) : Parses (r.times as.length) (as.flatMap enc) as := by
  induction as with
  | nil => exact Parses.pure []
  | cons a as ih =>
    rw [List.flatMap_cons, List.length_cons]
    apply (hr a List.mem_cons_self).bind
    apply Parses.map
    exact ih fun b hb => hr b (List.mem_cons_of_mem a hb)

/-- A decoder of the rest of the slice. -/
theorem Parses.rest {decode : Bytes → Exec (Except ε (α × Nat))} {bs : Bytes} {a : α}
    (h : ∀ rest, decode (bs ++ rest) = .ok (.ok (a, bs.length))) :
    Parses (Reader.rest decode) bs a := by
  intro data rest pos hpos hdrop
  rw [Reader.rest, slice_to_end hpos, ok_bind, hdrop, h]
  rfl

/-! ### Totality -/

/-- On every slice the reader returns, and it stays in the slice. What it reads is `good`. -/
def Total (r : Reader ε α) (good : α → Prop) : Prop :=
  ∀ (data : Buffer) (pos : Nat), pos ≤ data.1.length →
    (∃ e, r data pos = .ok (.error e)) ∨
      ∃ a pos', r data pos = .ok (.ok (a, pos')) ∧ pos ≤ pos' ∧ pos' ≤ data.1.length ∧ good a

theorem Total.pure {good : α → Prop} {a : α} (h : good a) : Total (pure a : Reader ε α) good :=
  fun _ pos hpos => .inr ⟨a, pos, rfl, le_rfl, hpos, h⟩

theorem Total.mono {r : Reader ε α} {good good' : α → Prop} (hr : Total r good)
    (h : ∀ a, good a → good' a) : Total r good' := by
  intro data pos hpos
  obtain he | ⟨a, pos', ha, hle, hpos', hgood⟩ := hr data pos hpos
  · exact .inl he
  · exact .inr ⟨a, pos', ha, hle, hpos', h a hgood⟩

theorem Total.fail (e : ε) (good : α → Prop) : Total (Reader.fail e) good :=
  fun _ _ _ => .inl ⟨e, rfl⟩

theorem Total.bind {r : Reader ε α} {f : α → Reader ε β} {good : α → Prop} {good' : β → Prop}
    (hr : Total r good) (hf : ∀ a, good a → Total (f a) good') : Total (r >>= f) good' := by
  intro data pos hpos
  obtain ⟨e, he⟩ | ⟨a, pos', ha, hle, hpos', hgood⟩ := hr data pos hpos
  · exact .inl ⟨e, bind_of_error he⟩
  · rw [bind_of_ok ha]
    obtain ⟨e, he⟩ | ⟨b, pos'', hb, hle', hpos'', hgood'⟩ := hf a hgood data pos' hpos'
    · exact .inl ⟨e, he⟩
    · exact .inr ⟨b, pos'', hb, hle.trans hle', hpos'', hgood'⟩

theorem Total.times {r : Reader ε α} {good : α → Prop} (hr : Total r good) (n : Nat) :
    Total (r.times n) fun as => ∀ a ∈ as, good a := by
  induction n with
  | zero => exact Total.pure fun a ha => absurd ha List.not_mem_nil
  | succ n ih =>
    apply hr.bind
    intro a ha
    apply ih.bind
    intro as has
    exact Total.pure (List.forall_mem_cons.mpr ⟨ha, has⟩)

/-- A decoder of the rest of the slice. -/
theorem Total.rest {decode : Bytes → Exec (Except ε (α × Nat))} {good : α → Prop}
    (h : ∀ bs : Bytes, (∃ e, decode bs = .ok (.error e)) ∨
      ∃ a n, decode bs = .ok (.ok (a, n)) ∧ n ≤ bs.length ∧ good a) :
    Total (Reader.rest decode) good := by
  intro data pos hpos
  obtain ⟨e, he⟩ | ⟨a, n, ha, hn, hgood⟩ := h (data.1.drop pos)
  · refine .inl ⟨e, ?_⟩
    rw [Reader.rest, slice_to_end hpos, ok_bind, he]
    rfl
  · refine .inr ⟨a, pos + n, ?_, Nat.le_add_right pos n, ?_, hgood⟩
    · rw [Reader.rest, slice_to_end hpos, ok_bind, ha]
      rfl
    · rw [List.length_drop] at hn
      omega

end Reader

end MerlionKernel.Rust
