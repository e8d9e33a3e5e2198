import Mathlib.Data.UInt
import Mathlib.Tactic.Common

/-!
# Integers in memory

`leBytes n v` is the little-endian image of an `n`-byte integer, `ofLe` reads one back. `swap` reverses
the bytes of an integer; it is what a little-endian host does to get to network order and back.
-/

namespace Pcl

def leBytes : Nat → Nat → List UInt8
  | 0, _ => []
  | n + 1, v => UInt8.ofNat v :: leBytes n (v / 256)

def ofLe : List UInt8 → Nat
  | [] => 0
  | b :: l => b.toNat + 256 * ofLe l

/-- The integer of `n` bytes whose image is the reverse of the image of `v`. -/
def swap (n v : Nat) : Nat := ofLe (leBytes n v).reverse

@[simp] theorem leBytes_length (n v : Nat) : (leBytes n v).length = n := by
  induction n generalizing v with
  | zero => rfl
  | succ n ih => rw [leBytes, List.length_cons, ih]

theorem ofLe_leBytes {n v : Nat} (h : v < 256 ^ n) : ofLe (leBytes n v) = v := by
  induction n generalizing v with
  | zero =>
    have hv : v = 0 := by simpa using h
    rw [hv]
    rfl
  | succ n ih =>
    have hdiv : v / 256 < 256 ^ n := by
      rw [Nat.pow_succ] at h
      omega
    rw [leBytes, ofLe, ih hdiv, UInt8.toNat_ofNat']
    omega

end Pcl
