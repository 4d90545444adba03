namespace MerkleLog

/-- Why a computation on leaf positions cannot go on. -/
inductive Fault where
  | invertedSpan (start stop : UInt64)
  | outOfWords
  | wideShift
  /-- A shift towards the high end drops a set bit. -/
  | lostBits
  /-- The highest set bit of zero. -/
  | noHighestBit
  | highLevel (level : Nat)
  /-- The subtrees laid side by side do not end where the interval does. -/
  | unevenCover (reached stop : UInt64)
  /-- The node has leaves past the end of the tree. -/
  | pastTree (stop size : UInt64)
  /-- A list of nodes is read past its end. -/
  | pastNodes (place count : Nat)
  /-- The run to fold reaches past the last hash. -/
  | pastHashes (stop : UInt64) (count : Nat)
  deriving DecidableEq, Repr

def Fault.message : Fault → String
  | invertedSpan start stop => s!"invalid range [{start}, {stop})"
  | outOfWords => "arithmetic left the 64-bit words"
  | wideShift => "shift by 64 bits or more"
  | lostBits => "shift dropped a set bit"
  | noHighestBit => "zero has no highest bit"
  | highLevel level => s!"no node has level {level}"
  | unevenCover reached stop => s!"cover ends at {reached} and not at {stop}"
  | pastTree stop size => s!"node ends at {stop} in a tree of size {size}"
  | pastNodes place count => s!"no node is at {place} of {count}"
  | pastHashes stop count => s!"run ends at {stop} of {count} hashes"

/-- Leaf positions, node indexes and tree sizes are 64-bit words. -/
abbrev Word := UInt64

/-- The sum of two words, unless it needs a 65th bit. -/
def Word.add (x y : Word) : Except Fault Word :=
  if x.toNat + y.toNat < UInt64.size then .ok (x + y) else .error .outOfWords

def Word.sub (x y : Word) : Except Fault Word :=
  if y ≤ x then .ok (x - y) else .error .outOfWords

/-- Multiplies by a power of two. Shifting back shows whether a set bit fell off the high end. -/
def Word.shiftUp (x : Word) (places : Nat) : Except Fault Word :=
  if places < 64 then
    let moved := x <<< UInt64.ofNat places
    if moved >>> UInt64.ofNat places = x then .ok moved else .error .lostBits
  else .error .wideShift

/-- Divides by a power of two, rounding down. -/
def Word.shiftDown (x : Word) (places : Nat) : Except Fault Word :=
  if places < 64 then .ok (x >>> UInt64.ofNat places) else .error .wideShift

def Word.highestBit (x : Word) : Except Fault Nat :=
  if x = 0 then .error .noHighestBit else .ok x.toNat.log2

def Word.bit (place : Nat) : Except Fault Word :=
  Word.shiftUp 1 place

/-- The word whose ones are at the places under the given one. -/
def Word.mask (place : Nat) : Except Fault Word := do
  Word.sub (← Word.bit place) 1

def Word.ofCount (n : Nat) : Except Fault Word :=
  if n < UInt64.size then .ok (UInt64.ofNat n) else .error .outOfWords

/-- How many binary digits a number has; zero has none. -/
def bitLength (n : Nat) : Nat :=
  if n = 0 then 0 else n.log2 + 1

/-- How many binary digits of a number are one. -/
def popCount (n : Nat) : Nat :=
  if n = 0 then 0 else n % 2 + popCount (n / 2)
termination_by n
decreasing_by omega

@[simp] theorem popCount_zero : popCount 0 = 0 := by
  rw [popCount, if_pos rfl]

theorem popCount_eq (n : Nat) : popCount n = n % 2 + popCount (n / 2) := by
  by_cases h : n = 0
  · subst n; simp
  · rw [popCount, if_neg h]

/-- The place of the lowest one among the binary digits of a number; zero has none, and gives 0. -/
def lowestBit (n : Nat) : Nat :=
  if n = 0 ∨ n % 2 = 1 then 0 else lowestBit (n / 2) + 1
termination_by n
decreasing_by omega

theorem testBit_lowestBit {n : Nat} (h : n ≠ 0) : n.testBit (lowestBit n) = true := by
  induction n using lowestBit.induct with
  | case1 n hn =>
    rw [lowestBit, if_pos hn, Nat.testBit_zero, hn.resolve_left h]
    rfl
  | case2 n hn ih =>
    rw [lowestBit, if_neg hn, Nat.testBit_succ]
    exact ih (by omega)

theorem xor_shiftLeft_lt {n place : Nat} (h : n.testBit place = true) : n ^^^ (1 <<< place) < n := by
  induction place generalizing n with
  | zero =>
    have hodd : n % 2 = 1 := by rwa [Nat.testBit_zero, decide_eq_true_iff] at h
    have hhalf : (n ^^^ 1) / 2 = n / 2 := by rw [Nat.xor_div_two, Nat.div_eq_of_lt Nat.one_lt_two, Nat.xor_zero]
    have heven : ¬ (n ^^^ 1) % 2 = 1 := by
      rw [Nat.xor_mod_two_eq_one, hodd]
      decide
    rw [Nat.shiftLeft_zero]
    omega
  | succ place ih =>
    have hlt : n / 2 ^^^ (1 <<< place) < n / 2 := ih (by rwa [Nat.testBit_succ] at h)
    have hhalf : (n ^^^ (1 <<< (place + 1))) / 2 = n / 2 ^^^ (1 <<< place) := by
      rw [Nat.xor_div_two, Nat.shiftLeft_succ, Nat.mul_div_cancel_left _ (by decide)]
    omega

/-- Turns the digit at a place into the other one. -/
def Word.flip (x : Word) (place : Nat) : Word :=
  x ^^^ (1 <<< UInt64.ofNat place)

theorem Word.place_lt {x : Word} {place : Nat} (h : x.toNat.testBit place = true) : place < 64 := by
  refine Nat.lt_of_not_le fun hle => ?_
  have hlt : x.toNat < 2 ^ place := Nat.lt_of_lt_of_le x.toNat_lt (Nat.pow_le_pow_right (by decide) hle)
  rw [Nat.testBit_lt_two_pow hlt] at h
  cases h

theorem Word.toNat_flip (x : Word) {place : Nat} (h : place < 64) :
    (x.flip place).toNat = x.toNat ^^^ (1 <<< place) := by
  have hplace : (UInt64.ofNat place).toNat % 64 = place := by
    rw [UInt64.toNat_ofNat_of_lt' (Nat.lt_trans h (by decide)), Nat.mod_eq_of_lt h]
  have hfit : 1 <<< place < 2 ^ 64 := by
    rw [Nat.one_shiftLeft]
    exact Nat.pow_lt_pow_right (by decide) h
  rw [Word.flip, UInt64.toNat_xor, UInt64.toNat_shiftLeft, hplace]
  rw [show (1 : Word).toNat = 1 from rfl, Nat.mod_eq_of_lt hfit]

/-- A word gets smaller when one of its ones is cleared. -/
theorem Word.toNat_flip_lt {x : Word} {place : Nat} (h : x.toNat.testBit place = true) :
    (x.flip place).toNat < x.toNat := by
  rw [x.toNat_flip (Word.place_lt h)]
  exact xor_shiftLeft_lt h

theorem Word.toNat_ne_zero {x : Word} (h : x ≠ 0) : x.toNat ≠ 0 :=
  fun hz => h (UInt64.toNat_inj.mp hz)

theorem Word.testBit_lowestBit {x : Word} (h : x ≠ 0) : x.toNat.testBit (lowestBit x.toNat) = true :=
  MerkleLog.testBit_lowestBit (Word.toNat_ne_zero h)

theorem Word.testBit_highestBit {x : Word} {place : Nat} (h : x.highestBit = .ok place) :
    x.toNat.testBit place = true := by
  unfold Word.highestBit at h
  split at h
  next => cases h
  next hx =>
    cases h
    exact Nat.testBit_log2 (Word.toNat_ne_zero hx)

end MerkleLog
