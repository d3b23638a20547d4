/-
  Scytale.Blake3 — the digest the program uses, as a computable `Hasher`.

  Theorems take the digest function as a parameter; this is the function concrete inputs
  are evaluated with. It is the hash mode of BLAKE3 with a 32-byte output: chunks of 1024
  bytes, blocks of 64, and a binary tree over the chunks whose left side is the largest
  complete one. Words are numbers below `2 ^ 32`, which the kernel computes with directly.
-/
import Scytale.Primitives

namespace Scytale.Blake3

open Lib

def iv : List Nat :=
  [0x6A09E667, 0xBB67AE85, 0x3C6EF372, 0xA54FF53A, 0x510E527F, 0x9B05688C, 0x1F83D9AB, 0x5BE0CD19]

def chunkStart : Nat := 1
def chunkEnd : Nat := 2
def parentFlag : Nat := 4
def rootFlag : Nat := 8

def add32 (a b : Nat) : Nat := Nat.mod (Nat.add a b) 4294967296

def rotr (x n : Nat) : Nat := Nat.lor (Nat.shiftRight x n) (Nat.mod (Nat.shiftLeft x (Nat.sub 32 n)) 4294967296)

/-- The quarter round. -/
def mix (a b c d x y : Nat) : Nat × Nat × Nat × Nat :=
  let a := add32 (add32 a b) x
  let d := rotr (Nat.xor d a) 16
  let c := add32 c d
  let b := rotr (Nat.xor b c) 12
  let a := add32 (add32 a b) y
  let d := rotr (Nat.xor d a) 8
  let c := add32 c d
  let b := rotr (Nat.xor b c) 7
  (a, b, c, d)

/-- One round: the columns of the state, then its diagonals. -/
def round (s m : List Nat) : List Nat :=
  match s, m with
  | [s0, s1, s2, s3, s4, s5, s6, s7, s8, s9, s10, s11, s12, s13, s14, s15],
    [m0, m1, m2, m3, m4, m5, m6, m7, m8, m9, m10, m11, m12, m13, m14, m15] =>
    match mix s0 s4 s8 s12 m0 m1, mix s1 s5 s9 s13 m2 m3, mix s2 s6 s10 s14 m4 m5, mix s3 s7 s11 s15 m6 m7 with
    | (s0, s4, s8, s12), (s1, s5, s9, s13), (s2, s6, s10, s14), (s3, s7, s11, s15) =>
      match mix s0 s5 s10 s15 m8 m9, mix s1 s6 s11 s12 m10 m11, mix s2 s7 s8 s13 m12 m13, mix s3 s4 s9 s14 m14 m15 with
      | (s0, s5, s10, s15), (s1, s6, s11, s12), (s2, s7, s8, s13), (s3, s4, s9, s14) =>
        [s0, s1, s2, s3, s4, s5, s6, s7, s8, s9, s10, s11, s12, s13, s14, s15]
  | s, _ => s

def permute (m : List Nat) : List Nat :=
  match m with
  | [m0, m1, m2, m3, m4, m5, m6, m7, m8, m9, m10, m11, m12, m13, m14, m15] =>
    [m2, m6, m3, m10, m7, m0, m4, m13, m1, m11, m12, m5, m9, m14, m15, m8]
  | m => m

def rounds : Nat → List Nat → List Nat → List Nat
  | 0, s, _ => s
  | n + 1, s, m => rounds n (round s m) (permute m)

/-- What one compression takes; the root flag is added only when the digest is read. -/
structure Input where
  cv : List Nat
  block : List Nat
  counter : Nat
  len : Nat
  flags : Nat

def Input.compress (i : Input) (extra : Nat) : List Nat :=
  let s := rounds 7
    (i.cv ++ iv.take 4 ++ [i.counter % 4294967296, i.counter / 4294967296, i.len, Nat.lor i.flags extra]) i.block
  List.zipWith Nat.xor (s.take 8) (s.drop 8)

/-- A little-endian word. -/
def word : Bytes → Nat
  | [] => 0
  | b :: bs => Nat.add b.toNat (Nat.mul 256 (word bs))

/-- The first `n` words; missing bytes are zero. -/
def words : Nat → Bytes → List Nat
  | 0, _ => []
  | n + 1, bs => word (bs.take 4) :: words n (bs.drop 4)

/-- The last compression of a chunk, the earlier blocks chained into its key. -/
def chunkInput : Nat → List Nat → Nat → Nat → Bytes → Input
  | 0, cv, counter, start, bs => ⟨cv, words 16 bs, counter, bs.length, Nat.lor start chunkEnd⟩
  | n + 1, cv, counter, start, bs =>
    if bs.length ≤ 64 then ⟨cv, words 16 bs, counter, bs.length, Nat.lor start chunkEnd⟩
    else chunkInput n ((⟨cv, words 16 (bs.take 64), counter, 64, start⟩ : Input).compress 0) counter 0 (bs.drop 64)

/-- The bytes of the left subtree: the largest power of two of chunks that leaves some. -/
def leftLen (n : Nat) : Nat := 1024 * 2 ^ Nat.log2 ((n - 1) / 1024)

/-- The last compression of a subtree; a tree has at most 54 levels. -/
def treeInput : Nat → Nat → Bytes → Input
  | 0, counter, bs => chunkInput 15 iv counter chunkStart bs
  | f + 1, counter, bs =>
    if bs.length ≤ 1024 then chunkInput 15 iv counter chunkStart bs
    else
      let l := leftLen bs.length
      let left := (treeInput f counter (bs.take l)).compress 0
      let right := (treeInput f (counter + l / 1024) (bs.drop l)).compress 0
      ⟨iv, left ++ right, 0, 64, parentFlag⟩

def digest (bs : Bytes) : Hash256 :=
  let out := (treeInput 54 0 bs).compress rootFlag
  ⟨(List.range 8).flatMap fun i => leBytes 4 (out.getD i 0), by simp [List.range_succ, leBytes]⟩

/-- The digest of the empty string. -/
example : byteVal (digest []).bytes = 0xaf1349b9f5f9a1a6a0404dea36dcc9499bcb25c9adc112b7cc9a93cae41f3262 := by
  decide +kernel

end Scytale.Blake3
