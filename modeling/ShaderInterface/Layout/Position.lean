import ShaderInterface.Shape

namespace ShaderInterface

/-- The least multiple of `alignment` that is not below `n`, for a positive alignment. -/
def roundUp (n alignment : Nat) : Nat := (n + alignment - 1) / alignment * alignment

namespace Position

/-- The last position, and the largest size in bytes. -/
def last : Nat := 0xFFFFFFFFFFFFFFFF

/-- Moves on by a number of components, no further than the last position. -/
def advance (position count : Nat) : Nat := min (position + count) last

def alignTo (position alignment : Nat) : Except Fault Nat :=
  if alignment = 0 then .error .zeroAlignment
  else if roundUp position alignment ≤ last then .ok (roundUp position alignment)
  else .error .addOverflow

def nextRegister (position : Nat) : Except Fault Nat := alignTo position registerWidth

def register (position : Nat) : Nat := position / registerWidth

def element (position : Nat) : Nat := position % registerWidth

def bytes (position : Nat) : Nat := min (position * componentBytes) last

/-- A product of sizes, which has to fit in 64 bits. -/
def product (a b : Nat) : Except Fault Nat :=
  if a * b ≤ last then .ok (a * b) else .error .multiplyOverflow

theorem advance_le_last (position count : Nat) : advance position count ≤ last :=
  Nat.min_le_right ..

theorem advance_of_le {position count : Nat} (h : position + count ≤ last) :
    advance position count = position + count :=
  Nat.min_eq_left h

theorem le_advance {position : Nat} (count : Nat) (h : position ≤ last) :
    position ≤ advance position count := by
  unfold advance
  omega

end Position

theorem le_roundUp (n : Nat) {alignment : Nat} (h : 0 < alignment) : n ≤ roundUp n alignment := by
  have hm := Nat.div_add_mod (n + alignment - 1) alignment
  have hl := Nat.mod_lt (n + alignment - 1) h
  rw [Nat.mul_comm] at hm
  unfold roundUp
  omega

theorem roundUp_lt (n : Nat) {alignment : Nat} (h : 0 < alignment) :
    roundUp n alignment < n + alignment := by
  have hm := Nat.div_mul_le_self (n + alignment - 1) alignment
  unfold roundUp
  omega

theorem dvd_roundUp (n alignment : Nat) : alignment ∣ roundUp n alignment :=
  Nat.dvd_mul_left ..

theorem roundUp_le {n alignment m : Nat} (h : 0 < alignment) (hm : alignment ∣ m) (hn : n ≤ m) :
    roundUp n alignment ≤ m := by
  obtain ⟨k, rfl⟩ := hm
  have hlt : n + alignment - 1 < alignment * (k + 1) := by
    rw [Nat.mul_add, Nat.mul_one]
    omega
  have hk : (n + alignment - 1) / alignment ≤ k :=
    Nat.le_of_lt_succ (Nat.div_lt_of_lt_mul hlt)
  unfold roundUp
  rw [Nat.mul_comm]
  exact Nat.mul_le_mul_left _ hk

theorem roundUp_of_dvd {n alignment : Nat} (h : 0 < alignment) (hn : alignment ∣ n) :
    roundUp n alignment = n :=
  Nat.le_antisymm (roundUp_le h hn (Nat.le_refl n)) (le_roundUp n h)

namespace Position

theorem nextRegister_eq (position : Nat) :
    nextRegister position =
      if roundUp position registerWidth ≤ last then .ok (roundUp position registerWidth)
      else .error .addOverflow :=
  rfl

theorem nextRegister_of_le {position : Nat} (h : roundUp position registerWidth ≤ last) :
    nextRegister position = .ok (roundUp position registerWidth) := by
  rw [nextRegister_eq, if_pos h]

end Position

end ShaderInterface
