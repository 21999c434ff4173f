namespace ShaderInterface

def maxWord : Nat := 0xFFFFFFFF

def maxOffset : Nat := 0x7FFFFFFF

/-- A count as a 32-bit word, held at the top of the range once it no longer fits. -/
def clampWord (n : Nat) : UInt32 := UInt32.ofNat (min n maxWord)

def clampOffset (n : Nat) : Int32 := Int32.ofNat (min n maxOffset)

@[simp] theorem toNat_clampWord (n : Nat) : (clampWord n).toNat = min n maxWord := by
  have h : min n maxWord < 2 ^ 32 := by unfold maxWord; omega
  simp only [clampWord, UInt32.toNat_ofNat']
  exact Nat.mod_eq_of_lt h

theorem toNat_le_maxWord (w : UInt32) : w.toNat ≤ maxWord := by
  have h := w.toNat_lt
  unfold maxWord
  omega

theorem clampWord_toNat (w : UInt32) : clampWord w.toNat = w := by
  apply UInt32.toNat_inj.mp
  rw [toNat_clampWord, Nat.min_eq_left (toNat_le_maxWord w)]

@[simp] theorem toInt_clampOffset (n : Nat) : (clampOffset n).toInt = (min n maxOffset : Nat) := by
  have h : min n maxOffset < 2 ^ 31 := by unfold maxOffset; omega
  exact Int32.toInt_ofNat_of_lt h

end ShaderInterface
