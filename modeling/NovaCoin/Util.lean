import Mathlib.Data.List.TakeWhile

/-!
# Texts

Functions of `util.cpp` that read strings. A string is its bytes.
-/

namespace NovaCoin

/-- `str.c_str()`: the bytes before the first NUL. -/
def cStr (str : List UInt8) : List UInt8 := str.takeWhile (· != 0)

/-- `WildcardMatch` on C strings, without their NUL; 42 is `*` and 63 is `?`. -/
def wildcardMatch : List UInt8 → List UInt8 → Bool
  | psz, [] => psz.isEmpty
  | [], c :: mask => if c = 42 then wildcardMatch [] mask else false
  | p :: psz, c :: mask =>
    if c = 42 then wildcardMatch (p :: psz) mask || wildcardMatch psz (c :: mask)
    else if c != 63 && p != c then false
    else wildcardMatch psz mask
termination_by psz mask => psz.length + mask.length

end NovaCoin
