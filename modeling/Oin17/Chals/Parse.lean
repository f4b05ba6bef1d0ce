import Mathlib.Algebra.Order.Ring.Int
import Oin17.Chals.Prefix

namespace Oin17.Chals
open Loop Memory Utils

def chalSort : UInt8 := 0
def chalRsort : UInt8 := 1
def chalSpath : UInt8 := 2

structure Chal where
  type : UInt8
  lhash : Buf
  left : UInt32
  id : UInt64
  pfix : Buf
  plen : Nat
  /-- The first word of `params`, which `sl.nelems` and `sp.size` share. -/
  size : UInt64
  nblks : UInt64

def isspace (c : UInt8) : Bool := c = 32 || 9 ≤ c && c ≤ 13

def digits : List UInt8 → Int → Int
  | c :: s, n => if 48 ≤ c ∧ c ≤ 57 then digits s (10 * n + (c.toNat - 48)) else n
  | [], n => n

/-- `strtol` in base 10, which saturates. -/
def strtol (s : List UInt8) : Int :=
  let n := match s.dropWhile isspace with
    | 45 :: s => -digits s 0
    | 43 :: s => digits s 0
    | s => digits s 0
  max (-2 ^ 63) (min (2 ^ 63 - 1) n)

/-- `__parse_toks`. There is no result when it writes past the end of `lhash` or
`pfix`, or reads past the end of `val`. -/
def parseTok (key val : Buf) (chal : Chal) : Option (Int × Chal) :=
  let k := cstr key 64
  let v := cstr val 256
  if k = bytes "time_left" then some (0, { chal with left := .ofInt (strtol v) })
  else if k = bytes "nb_elements" then some (0, { chal with size := .ofInt (strtol v) })
  else if k = bytes "grid_size" then some (0, { chal with size := .ofInt (strtol v) })
  else if k = bytes "nb_blockers" then some (0, { chal with nblks := .ofInt (strtol v) })
  else if k = bytes "challenge_name" then
    if v = bytes "sorted_list" then some (0, { chal with type := chalSort })
    else if v = bytes "reverse_sorted_list" then some (0, { chal with type := chalRsort })
    else if v = bytes "shortest_path" then some (0, { chal with type := chalSpath })
    else some (-1, chal)
  else if k = bytes "hash_prefix" then
    (hex2bin 128 val (some chal.pfix)).bind fun r =>
      if sha256Len < r.j then none
      else some (0, { chal with pfix := r.dst.getD chal.pfix, plen := r.j })
  else if k = bytes "challenge_id" then some (0, { chal with id := .ofInt (strtol v) })
  else if k = bytes "last_solution_hash" then
    if 2 * sha256Len < v.length then none
    else some (0, { chal with lhash := store chal.lhash 0 (v ++ [0]) })
  else some (0, chal)

inductive TokenType where
  | undefined | object | array | string | primitive
  deriving DecidableEq

/-- A token of jsmn, from `start` up to `stop`. -/
structure Token where
  type : TokenType
  start : Nat
  stop : Nat

structure Toks where
  d : Nat
  k : Buf
  v : Buf
  chal : Chal

/-- The macro of that name, on a destination of `n` bytes. -/
def tokcpy (buf dst : Buf) (n : Nat) (t : Token) : Option Buf :=
  if t.start ≤ t.stop ∧ t.stop - t.start < n then
    some (Function.update (store dst 0 (load buf t.start (t.stop - t.start))) (t.stop - t.start) 0)
  else none

/-- What a token does to the key, the value and the count of them. -/
def Toks.take (buf : Buf) (s : Toks) (t : Token) : Option Toks :=
  match t.type with
  | .string =>
    if s.d = 0 then (tokcpy buf s.k 64 t).map fun k => { s with k := k, d := 1 }
    else (tokcpy buf s.v 256 t).map fun v => { s with v := v, d := 2 }
  | .primitive => (tokcpy buf s.v 256 t).map fun v => { s with v := v, d := s.d + 1 }
  | _ => some { s with d := 0 }

def parseToks (buf : Buf) : List Token → Toks → Option (Int × Chal)
  | [], s => some (0, s.chal)
  | t :: ts, s =>
    if t.type = .array ∨ t.type = .undefined then some (-1, s.chal)
    else (s.take buf t).bind fun s =>
      if s.d = 2 then
        (parseTok s.k s.v s.chal).bind fun (r, chal) =>
          if r ≠ 0 then some (-1, chal) else parseToks buf ts { s with d := 0, chal := chal }
      else parseToks buf ts s

/-- The tokens jsmn finds in a buffer, unless it gives an error. -/
abbrev Jsmn := List UInt8 → Option (List Token)

/-- What `chal_parse` has room for: the response, the pairs in it and those of the parameters. -/
def maxTokens : Nat := 1 + 7 * 2 + 2 * 2

/-- A tokenizer that gives an error where there is no room for the tokens. -/
def Jsmn.room (jsmn : Jsmn) (n : Nat) : Jsmn :=
  fun bs => (jsmn bs).filter fun toks => toks.length ≤ n

/-- `k` and `v` are what the buffers of `parse_toks` hold at first, and `jsmn` is what
`jsmn_parse` gives with the room there is. The first token, the envelope, is skipped. -/
def chalParse (jsmn : Jsmn) (buf : Buf) (len : Nat) (k v : Buf) (chal : Chal) :
    Option (Int × Chal) :=
  match jsmn (load buf 0 len) with
  | none => some (-1, chal)
  | some toks => parseToks buf (toks.drop 1) { d := 0, k := k, v := v, chal := chal }

end Oin17.Chals
