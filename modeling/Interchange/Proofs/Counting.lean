import Interchange.Proofs.Border
import Mathlib.Logic.Function.Iterate
/-!
# Counting — the border is found by looking places up

The places of a table are counted on machine words: the integer after the count is looked up, and the count goes on while
something is there.  Nothing bounds it but the table: every place that was counted has an entry of its own, so the count
ends after no more rounds than there are entries, and with fewer entries than places its words never overflow
(`Table.border_counted`).  Where it ends is the only number of places that hold something up to one that does not.
-/
namespace Interchange

namespace Table

variable {t : Table}

/-- **The border said by keys**: up to `n` every integer is the key of something, and the integer after `n` is not. -/
structure IsBorder (t : Table) (n : Nat) : Prop where
  holds : ∀ i : Nat, 1 ≤ i → i ≤ n → ∃ k : Int64, k.toInt = i ∧ t.get (.integer k) ≠ .nil
  ends : ∀ k : Int64, k.toInt = n + 1 → t.get (.integer k) = .nil

/-- A count of places: at some number of them, ended there, or past what the words hold. -/
inductive Count where
  | reached (n : UInt64)
  | ended (n : UInt64)
  | overflowed
deriving DecidableEq, Repr

/-- **One round of a count.**  The integer after the count, a signed word, is looked up. -/
def Count.next (t : Table) : Count → Count
  | reached n =>
    if n.toInt64 = Int64.maxValue then overflowed
    else
      match t.get? (.integer (n.toInt64 + 1)) with
      | none => ended n
      | some v => if v.isNil then ended n else if n.toNat + 1 = 2 ^ 64 then overflowed else reached (n + 1)
  | c => c

/-- **The count of a table** after some rounds. -/
def count (t : Table) (rounds : Nat) : Count := (Count.next t)^[rounds] (.reached 0)

/-! ## Rounds -/

theorem toInt64_ofNat_ne {n : Nat} (hn : n + 1 < 2 ^ 63) : (UInt64.ofNat n).toInt64 ≠ Int64.maxValue := fun h => by
  have hint := congrArg Int64.toInt h
  rw [UInt64.toInt64_ofNat', Int64.toInt_ofNat_of_lt (by omega), Int64.toInt_maxValue] at hint
  omega

/-- The key that is looked up is that of the next place. -/
theorem integer_eq_ofPlace (n : Nat) : Key.integer ((UInt64.ofNat n).toInt64 + 1) = .ofPlace (n + 1) := by
  rw [UInt64.toInt64_ofNat', Key.ofPlace, Int64.ofNat_add]
  rfl

/-- **A round at a place that holds something goes on.** -/
theorem next_of_get_ne {n : Nat} (hn : n + 1 < 2 ^ 63) (hget : t.get (.ofPlace (n + 1)) ≠ .nil) :
    Count.next t (.reached (.ofNat n)) = .reached (.ofNat (n + 1)) := by
  have hword : (UInt64.ofNat n).toNat = n := UInt64.toNat_ofNat_of_lt' (by show n < 2 ^ 64; omega)
  rw [Count.next, if_neg (toInt64_ofNat_ne hn), integer_eq_ofPlace]
  rw [get] at hget
  cases h : t.get? (.ofPlace (n + 1)) with
  | none => rw [h] at hget; exact absurd rfl hget
  | some v =>
    rw [h] at hget
    have hnil : v.isNil = false := isNil_eq_false hget
    dsimp only
    rw [hnil, if_neg Bool.false_ne_true, hword, if_neg (by omega), UInt64.ofNat_add]
    rfl

/-- **A round at a place that holds nothing ends the count.** -/
theorem next_of_get_eq {n : Nat} (hn : n + 1 < 2 ^ 63) (hget : t.get (.ofPlace (n + 1)) = .nil) :
    Count.next t (.reached (.ofNat n)) = .ended (.ofNat n) := by
  rw [Count.next, if_neg (toInt64_ofNat_ne hn), integer_eq_ofPlace]
  rw [get] at hget
  cases h : t.get? (.ofPlace (n + 1)) with
  | none => rfl
  | some v =>
    rw [h] at hget
    obtain rfl : v = .nil := hget
    rfl

theorem count_succ (t : Table) (n : Nat) : t.count (n + 1) = Count.next t (t.count n) :=
  Function.iterate_succ_apply' (Count.next t) n (.reached 0)

/-- **Up to the border each round counts one place.** -/
theorem count_of_le_border : ∀ {n : Nat}, n ≤ t.border → t.count n = .reached (.ofNat n)
  | 0, _ => rfl
  | n + 1, hn => by
    have hlt : t.border < 2 ^ 63 := t.border_lt
    have hholds : Entries.holds t.entries (n + 1) = true := Entries.holds_of_le_border (Nat.succ_pos n) hn
    rw [count_succ, count_of_le_border (Nat.le_of_succ_le hn)]
    exact next_of_get_ne (by omega) ((holds_iff (Nat.succ_pos n) (by omega)).1 hholds)

theorem count_succ_border (hroom : t.border + 1 < 2 ^ 63) : t.count (t.border + 1) = .ended (.ofNat t.border) := by
  rw [count_succ, count_of_le_border (Nat.le_refl _)]
  exact next_of_get_eq hroom (get_next hroom)

/-- **A count that has ended stays as it is.** -/
theorem count_of_border_lt (hroom : t.border + 1 < 2 ^ 63) : ∀ {n : Nat}, t.border < n → t.count n = .ended (.ofNat t.border)
  | n + 1, hn => by
    by_cases hlast : n = t.border
    · rw [hlast, count_succ_border hroom]
    · rw [count_succ, count_of_border_lt hroom (by omega)]
      rfl

/-! ## The border by keys -/

theorem holds_iff_exists {i : Nat} (h1 : 1 ≤ i) :
    Entries.holds t.entries i = true ↔ ∃ k : Int64, k.toInt = i ∧ t.get (.integer k) ≠ .nil := by
  by_cases hi : i < 2 ^ 63
  · have hint : (Int64.ofNat i).toInt = i := Int64.toInt_ofNat_of_lt hi
    rw [holds_iff h1 hi]
    refine ⟨fun h => ⟨Int64.ofNat i, hint, h⟩, ?_⟩
    rintro ⟨k, hk, h⟩
    rwa [Key.ofPlace, ← Int64.toInt_inj.1 (hk.trans hint.symm)]
  · refine iff_of_false (fun h => ?_) ?_
    · obtain ⟨v, hv, -⟩ := (Option.any_eq_true _ _).1 h
      exact hi (Entries.place_le_of_place? hv)
    · rintro ⟨k, hk, -⟩
      have hlt := Int64.toInt_lt k
      omega

/-- **The border is the only number that is one by keys**, whatever other keys there are. -/
theorem isBorder_iff {n : Nat} : t.IsBorder n ↔ n = t.border := by
  have hends : Entries.holds t.entries (n + 1) = false ↔ ∀ k : Int64, k.toInt = n + 1 → t.get (.integer k) = .nil := by
    rw [← Bool.not_eq_true, holds_iff_exists (Nat.succ_pos n)]
    push Not
    rfl
  rw [eq_comm, border, Entries.border_eq_iff, hends]
  constructor
  · rintro ⟨hholds, hends⟩
    exact ⟨fun i h1 hi => (holds_iff_exists h1).2 (hholds i h1 hi), hends⟩
  · rintro ⟨hholds, hends⟩
    exact ⟨fun i h1 hi => (holds_iff_exists h1).1 (hholds i h1 hi), hends⟩

/-- **The count of a table ends at its border.**  It goes through one place in each round and ends in the round after the
last, the border; there are at most as many rounds before as the table has entries.  A table with fewer entries than there
are places overflows no word; no memory holds as many, an entry taking more than an octet.  The border is the only number up
to which all integers are keys of something, and after which the next is not. -/
theorem border_counted (t : Table) :
    t.border ≤ t.size ∧ t.border < 2 ^ 63 ∧
    (∀ n ≤ t.border, t.count n = .reached (.ofNat n)) ∧
    (t.size < 2 ^ 63 - 1 → (∀ n, t.border < n → t.count n = .ended (.ofNat t.border)) ∧ ∀ n, t.count n ≠ .overflowed) ∧
    ∀ n, t.IsBorder n ↔ n = t.border := by
  have hsize := t.border_le_size
  refine ⟨hsize, t.border_lt, fun n => count_of_le_border, fun hroom => ?_, fun n => isBorder_iff⟩
  have hafter : ∀ n, t.border < n → t.count n = .ended (.ofNat t.border) := fun n => count_of_border_lt (by omega)
  refine ⟨hafter, fun n h => ?_⟩
  rcases Nat.lt_or_ge t.border n with hn | hn
  · rw [hafter n hn] at h; cases h
  · rw [count_of_le_border hn] at h; cases h

/-- A table with three places out of order, a fourth that holds nil, and keys that are none: zero, negative and huge integers,
doubles, a text and a truth value. -/
def scattered : Table := ofPairs [(.integer 3, .string "c"), (.integer 0, .bool true), (.string "1", .string "x"),
  (.integer 2, .string "b"), (.integer Int64.maxValue, .string "y"), (.float ⟨0x4010000000000000⟩, .string "z"),
  (.integer 4, .nil), (.bool true, .nil), (.integer 1, .string "a"), (.integer (-1), .string "w"), (.integer 5, .string "e")]

/-- Three rounds go on, though eleven entries are there, and the fourth ends the count; a double key that is whole does not
stand for the place. -/
theorem border_counted_scattered : scattered.size = 11 ∧ scattered.size < 2 ^ 63 - 1 ∧ scattered.border = 3 ∧
    scattered.count 3 = .reached 3 ∧ scattered.count 4 = .ended 3 ∧ scattered.count 100 ≠ .overflowed ∧
    scattered.IsBorder 3 ∧ ¬ scattered.IsBorder 2 := by
  have hsize : scattered.size < 2 ^ 63 - 1 := by decide
  have hborder : scattered.border = 3 := by decide
  obtain ⟨-, -, hreached, hends, hiff⟩ := border_counted scattered
  obtain ⟨hended, hwords⟩ := hends hsize
  rw [hborder] at hreached hended hiff
  exact ⟨by decide, hsize, hborder, hreached 3 (by decide), hended 4 (by decide), hwords 100, (hiff 3).2 rfl,
    fun h => absurd ((hiff 2).1 h) (by decide)⟩

end Table
end Interchange
