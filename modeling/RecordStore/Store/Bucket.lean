import RecordStore.Bytes

/-!
# Buckets of keys

The keys of an unordered container are spread over buckets by a 32-bit hash of their bytes.

## Main definitions

* `Bucket.hash` — the hash of a byte string.
* `Bucket.leastPower` — the least power of two that is not below a number.
* `Bucket.count` — how many buckets a number of keys gets.
* `Bucket.ofKey` — the bucket of a key.
-/

namespace RecordStore.Bucket

def seed : UInt32 := 0xbc9f1d34

def multiplier : UInt32 := 0xc6a4a793

/-- Mixes in four bytes at a time, least significant first, and then up to three that are left. -/
def mix (h : UInt32) : Bytes → UInt32
  | a :: b :: c :: d :: rest =>
    let h := (h + UInt32.ofNat (Bytes.toNat [a, b, c, d])) * multiplier
    mix (h ^^^ (h >>> 16)) rest
  | [] => h
  | rest =>
    let h := (h + UInt32.ofNat rest.toNat) * multiplier
    h ^^^ (h >>> 24)

def hash (bytes : Bytes) (seed : UInt32) : UInt32 :=
  mix (seed ^^^ (UInt32.ofNat bytes.length * multiplier)) bytes

/-- The least power of two that is not below a number. -/
def leastPower (n : Nat) : Nat := if n ≤ 1 then 1 else Nat.pow 2 ((n - 1).log2 + 1)

def count (keys : Nat) : Nat := leastPower (max keys 1)

/-- The lowest bits of the hash choose among a power of two of buckets. -/
def ofKey (key : Bytes) (buckets : Nat) : Nat := (hash key seed).toNat &&& (buckets - 1)

end RecordStore.Bucket
