import RecordSieve.Binary64.Basic

/-! # Arithmetic and order on 64-bit floating-point numbers

Every operation is the exact result on counts of steps, rounded once. Equality is that of the
numbers: both zeros are equal and NaN equals nothing.
-/

namespace RecordSieve.Binary64

def signed (negative : Bool) (units : Nat) : Int := if negative then -units else units

/-- Rounds an exact count of steps; `zeroSign` is the sign of a zero result. -/
def ofSigned (zeroSign : Bool) (i : Int) : Binary64 :=
  if i = 0 then zero zeroSign else ofSteps (i < 0) i.natAbs 1

def add : Binary64 → Binary64 → Binary64
  | nan, _ | _, nan => nan
  | infinite s, infinite t => if s = t then infinite s else nan
  | infinite s, finite .. => infinite s
  | finite .., infinite t => infinite t
  | finite s m _, finite t n _ => ofSigned (s && t) (signed s m + signed t n)

def sub (x y : Binary64) : Binary64 := x.add y.neg

def mul : Binary64 → Binary64 → Binary64
  | nan, _ | _, nan => nan
  | infinite s, infinite t => infinite (s != t)
  | infinite s, finite t n _ => if n = 0 then nan else infinite (s != t)
  | finite s m _, infinite t => if m = 0 then nan else infinite (s != t)
  | finite s m _, finite t n _ => ofSteps (s != t) (m * n) (2 ^ 1074)

def div : Binary64 → Binary64 → Binary64
  | nan, _ | _, nan => nan
  | infinite _, infinite _ => nan
  | infinite s, finite t _ _ => infinite (s != t)
  | finite s _ _, infinite t => zero (s != t)
  | finite s m _, finite t n _ =>
    if n = 0 then (if m = 0 then nan else infinite (s != t)) else ofRatio (s != t) m n

/-- The remainder of division toward zero, exact and with the sign of the dividend. -/
def rem : Binary64 → Binary64 → Binary64
  | nan, _ | _, nan => nan
  | infinite _, _ => nan
  | finite s m h, infinite _ => finite s m h
  | finite s m _, finite _ n _ => if n = 0 then nan else ofSteps s (m % n) 1

def equal : Binary64 → Binary64 → Bool
  | infinite s, infinite t => s = t
  | finite s m _, finite t n _ => signed s m = signed t n
  | _, _ => false

def less : Binary64 → Binary64 → Bool
  | infinite s, infinite t => s && !t
  | infinite s, finite .. => s
  | finite .., infinite t => !t
  | finite s m _, finite t n _ => signed s m < signed t n
  | _, _ => false

def lessEqual (x y : Binary64) : Bool := x.less y || x.equal y

def isZero (x : Binary64) : Bool := x.equal (zero false)

end RecordSieve.Binary64
