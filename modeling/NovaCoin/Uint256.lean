import NovaCoin.Primitives

/-!
# Arithmetic of uint256

`uint256` (`uint256.h`, `uint256.cpp`) on `pn`, eight words of 32 bits with the lowest first.
-/

namespace NovaCoin

namespace Uint256

def words : Nat → Nat → List UInt32
  | 0, _ => []
  | k + 1, n => .ofNat n :: words k (n / 2 ^ 32)

def pn (x : Uint256) : List UInt32 := words 8 x.toNat

def value : List UInt32 → Nat
  | [] => 0
  | p :: pn => p.toNat + 2 ^ 32 * value pn

def ofPn (pn : List UInt32) : Uint256 := .ofNat 256 (value pn)

/-- The loop of `operator*=(uint32_t)`. -/
def mulWords (b32 : UInt32) : UInt64 → List UInt32 → List UInt32
  | _, [] => []
  | carry, p :: pn =>
    let n := carry + b32.toUInt64 * p.toUInt64
    n.toUInt32 :: mulWords b32 (n >>> 32) pn

def mulAssign32 (x : Uint256) (b32 : UInt32) : Uint256 := ofPn (mulWords b32 0 x.pn)

/-- The inner loop of `operator*=(const uint256&)`. -/
def mulRow (aj : UInt32) : UInt64 → List UInt32 → List UInt32 → List UInt32
  | carry, p :: pn, bi :: b =>
    let n := carry + p.toUInt64 + aj.toUInt64 * bi.toUInt64
    n.toUInt32 :: mulRow aj (n >>> 32) pn b
  | _, pn, _ => pn

/-- `operator*=(const uint256&)`. The rows are made with the words of `a`, which is 0 and becomes the
result. -/
def mulAssign (x b : Uint256) : Uint256 := Id.run do
  let a : Uint256 := 0
  let mut pn := x.pn
  for (aj, j) in a.pn.zipIdx do
    pn := pn.take j ++ mulRow aj 0 (pn.drop j) b.pn
  pn := a.pn
  return ofPn pn

end Uint256

end NovaCoin
