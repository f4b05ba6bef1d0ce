import Oin17.Chals.Prefix
import Oin17.Chals.Resize

namespace Oin17.Chals
open Memory Utils

def sha256Dlen : Nat := sha256Len * 2

/-- The size of `lh`, the buffer of `sortlist` and of `shortpath`. -/
def lhLen : Nat := sha256Dlen + u64strlen + 1

/-- The message that `mkseed` hashes, and its buffer of `n` bytes. There is no result when it
leaves it. -/
def seedMessage (n : Nat) (hbuf : Buf) (non : UInt64) : Option (List UInt8 × Buf) := do
  let (hbuf, l) ← u64strIn n non.toNat hbuf sha256Dlen
  -- if someone wants to print it
  let hbuf ← poke n hbuf (sha256Dlen + l) 0
  let msg ← loadIn n hbuf 0 (sha256Dlen + l)
  pure (msg, hbuf)

/-- The first 8 bytes of a digest as an u64, on a little-endian machine. -/
def digestWord (sha : Buf) : UInt64 :=
  .ofNat ((load sha 0 8).foldr (fun b w => b.toNat + 256 * w) 0)

def mkseed (sha256 : List UInt8 → Buf) (n : Nat) (hbuf : Buf) (non : UInt64) :
    Option (UInt64 × Buf) := do
  let (msg, hbuf) ← seedMessage n hbuf non
  pure (digestWord (sha256 msg), hbuf)

section
variable {hbuf : Buf} {non : UInt64}

/-- The digits and the NUL are all that is written. -/
theorem seedMessage_spec (hbuf : Buf) (non : UInt64) :
    seedMessage lhLen hbuf non =
      some (load hbuf 0 sha256Dlen ++ Utils.digits non.toNat,
        store hbuf sha256Dlen (Utils.digits non.toNat ++ [0])) := by
  have hfit := digits_length_le non
  have hdigits : sha256Dlen + (Utils.digits non.toNat).length < lhLen := by
    rw [lhLen, u64strlen]
    omega
  have hnul : Function.update (store hbuf sha256Dlen (Utils.digits non.toNat))
      (sha256Dlen + (Utils.digits non.toNat).length) 0 =
      store hbuf sha256Dlen (Utils.digits non.toNat ++ [0]) := by
    rw [store_append, ← store_cons, store_nil]
  have hmsg : loadIn lhLen (store hbuf sha256Dlen (Utils.digits non.toNat ++ [0])) 0
      (sha256Dlen + (Utils.digits non.toNat).length) =
      some (load hbuf 0 sha256Dlen ++ Utils.digits non.toNat) := by
    rw [loadIn, if_pos (by omega), store_append, load_store_out _ _ (by omega), load_store_append]
  simp only [seedMessage, u64strIn_eq hbuf (Nat.le_of_lt hdigits), u64str_spec,
    Option.bind_eq_bind, Option.bind_some, poke_some hdigits, hnul, hmsg]
  rfl

/-- Whatever the buffer holds behind the hash, a nonce has one message, and no other nonce has
it. -/
theorem mkseed_message (sha256 : List UInt8 → Buf) (hash : List UInt8)
    (hhash : load hbuf 0 sha256Dlen = hash) (hnon : 0 < non) :
    ∃ hbuf', seedMessage lhLen hbuf non = some (hash ++ decimal non.toNat, hbuf') ∧
      mkseed sha256 lhLen hbuf non =
        some (digestWord (sha256 (hash ++ decimal non.toNat)), hbuf') ∧
      (decimal non.toNat).head? ≠ some 48 ∧
      load hbuf' 0 sha256Dlen = hash ∧ (∀ i, lhLen ≤ i → hbuf' i = hbuf i) ∧
      ∀ lh other, load lh 0 sha256Dlen = hash → other ≠ non →
        ∃ msg lh', seedMessage lhLen lh other = some (msg, lh') ∧
          msg ≠ hash ++ decimal non.toNat := by
  have hdec : decimal non.toNat = Utils.digits non.toNat :=
    (digits_pos (UInt64.lt_iff_toNat_lt.mp hnon)).symm
  have hfit := digits_length_le non
  have hspec := seedMessage_spec hbuf non
  rw [hhash] at hspec
  rw [hdec]
  refine ⟨_, hspec, ?_, digits_head _, ?_, fun i hi => ?_, fun lh other hlh hne => ?_⟩
  · rw [mkseed, hspec]
    rfl
  · rw [load_store_out _ _ (by omega), hhash]
  · refine store_out _ _ (Or.inr ?_)
    rw [lhLen, u64strlen] at hi
    rw [List.length_append, List.length_singleton]
    omega
  · refine ⟨_, _, seedMessage_spec lh other, fun he => hne ?_⟩
    rw [hlh] at he
    exact UInt64.toNat_inj.mp (digits_inj (List.append_cancel_left he))

end

/-- A buffer that holds the longest nonce. -/
def fullLh : Buf := store (fun _ => 57) 64 (bytes "18446744073709551615")

theorem mkseed_message_ten :
    ∃ hbuf', seedMessage lhLen fullLh 10 = some (List.replicate 64 57 ++ decimal 10, hbuf') ∧
      mkseed (fun m i => m.getD i 0) lhLen fullLh 10 =
        some (digestWord fun i => (List.replicate 64 57 ++ decimal 10).getD i 0, hbuf') := by
  have hhash : load fullLh 0 sha256Dlen = List.replicate 64 57 := by decide
  have hnon : 0 < (10 : UInt64) := by decide
  obtain ⟨hbuf', h, h', -⟩ := mkseed_message (fun m i => m.getD i 0) _ hhash hnon
  exact ⟨hbuf', h, h'⟩

end Oin17.Chals
