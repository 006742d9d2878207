/-!
Numbers of steps that are counted out one at a time.

A bound on the steps of an iteration may be far too large to write down. A budget is such a bound
computed only as far as the steps are taken.
-/

namespace ValueFlow

/-- A number of steps, computed on demand. -/
inductive Budget where
  | spent
  | more (rest : Unit → Budget)

namespace Budget

def size : Budget → Nat
  | spent => 0
  | more rest => (rest ()).size + 1

/-- A budget of a given number of steps. -/
def ofNat : Nat → Budget
  | 0 => spent
  | n + 1 => more fun _ => ofNat n

def add : Budget → (Unit → Budget) → Budget
  | spent, b => b ()
  | more rest, b => more fun _ => (rest ()).add b

/-- A budget for every step of another. -/
def mul : Budget → Budget → Budget
  | spent, _ => spent
  | more rest, b => b.add fun _ => (rest ()).mul b

/-- A step for every word of bounded length over an alphabet. -/
def words (letters : Budget) : Nat → Budget
  | 0 => more fun _ => spent
  | n + 1 => more fun _ => letters.mul (words letters n)

@[simp] theorem size_ofNat (n : Nat) : (ofNat n).size = n := by
  induction n with
  | zero => rfl
  | succ n ih => simp [ofNat, size, ih]

@[simp] theorem size_add (a : Budget) (b : Unit → Budget) :
    (a.add b).size = a.size + (b ()).size := by
  induction a with
  | spent => simp [add, size]
  | more rest ih => simp only [add, size, ih]; omega

@[simp] theorem size_mul (a b : Budget) : (a.mul b).size = a.size * b.size := by
  induction a with
  | spent => simp [mul, size]
  | more rest ih => simp [mul, size, ih, Nat.add_mul, Nat.add_comm]

@[simp] theorem size_words_zero (letters : Budget) : (words letters 0).size = 1 := rfl

/-- A word is empty or a letter in front of a shorter word. -/
@[simp] theorem size_words_succ (letters : Budget) (n : Nat) :
    (words letters (n + 1)).size = letters.size * (words letters n).size + 1 := by
  simp [words, size]

theorem size_words_pos (letters : Budget) (n : Nat) : 0 < (words letters n).size := by
  cases n <;> simp

end Budget

end ValueFlow
