import Mathlib.Algebra.Group.Nat.Defs
import Mathlib.Logic.Basic
import Mathlib.Tactic.SplitIfs
import BaseCode.Foundation.BlockModes

/-!
# AES in the EVP library

`src/encrypt/encrypt_aes.c` over `lib/openssl/crypto/evp/evp_enc.c`: encryption and decryption with
AES in CBC mode, where a context takes its input in pieces of any length. It buffers what does not
fill a block, decryption also the last whole block, which may be padding. The block cipher is a
parameter, a permutation of the blocks for each key. Lengths are `int`s: one that does not fit is
`none`, as is a failing call, after which `encrypt_aes.c` aborts.
-/

namespace BaseCode.Encrypt
open Foundation

/-- `EVP_CIPHER_CTX`: the first `buf_len` bytes of `buf`, and `final` where it is used. -/
structure CipherCtx where
  iv : Octets
  buf : Octets
  final : Option Octets

/-- `EVP_CipherInit_ex`. -/
def evpCipherInit (iv : Octets) : CipherCtx := ⟨iv, [], none⟩

/-- `do_cipher`, on whole blocks: `CRYPTO_cbc128_encrypt` or `CRYPTO_cbc128_decrypt`. -/
def doCipher (mode : BlockMode) (ctx : CipherCtx) (input : Octets) : Octets × CipherCtx :=
  let done := runBlocks mode (input.length / blockSize) ctx.iv input
  (done.1, { ctx with iv := done.2 })

/-- A length in an `int`. -/
def FitsInt (octets : Octets) : Prop := octets.length < 2 ^ 31

instance (octets : Octets) : Decidable (FitsInt octets) := inferInstanceAs (Decidable (_ < _))

/-- What `EVP_EncryptUpdate` writes and keeps. -/
def encryptUpdate (mode : BlockMode) (ctx : CipherCtx) (input : Octets) : Octets × CipherCtx :=
  if input = [] then ([], ctx)
  else if ctx.buf = [] ∧ input.length % blockSize = 0 then doCipher mode ctx input
  else if ctx.buf ≠ [] ∧ input.length < blockSize - ctx.buf.length then
    ([], { ctx with buf := ctx.buf ++ input })
  else
    let j := if ctx.buf = [] then 0 else blockSize - ctx.buf.length
    let first := if ctx.buf = [] then ([], ctx) else doCipher mode ctx (ctx.buf ++ input.take j)
    let input := input.drop j
    let inl := input.length - input.length % blockSize
    let rest := doCipher mode first.2 (input.take inl)
    (first.1 ++ rest.1, { rest.2 with buf := input.drop inl })

/-- The same with its `inl` and `*outl`. -/
def evpEncryptUpdate (mode : BlockMode) (ctx : CipherCtx) (input : Octets) :
    Option (Octets × CipherCtx) :=
  let done := encryptUpdate mode ctx input
  if FitsInt input ∧ FitsInt done.1 then some done else none

def evpEncryptFinal (mode : BlockMode) (ctx : CipherCtx) : Octets :=
  let n := blockSize - ctx.buf.length
  (doCipher mode ctx (ctx.buf ++ List.replicate n (UInt8.ofNat n))).1

def evpDecryptUpdate (mode : BlockMode) (ctx : CipherCtx) (input : Octets) :
    Option (Octets × CipherCtx) :=
  if input = [] then some ([], ctx)
  else do
    let held := ctx.final.getD []
    let done ← evpEncryptUpdate mode ctx input
    let outl := if done.2.buf = [] then done.1.length - blockSize else done.1.length
    let out := held ++ done.1.take outl
    let final := if done.2.buf = [] then some (done.1.drop outl) else none
    if FitsInt out then some (out, { done.2 with final }) else none

def evpDecryptFinal (ctx : CipherCtx) : Option Octets :=
  if ctx.buf ≠ [] then none
  else
    ctx.final.bind fun final =>
      let n := (final.getLastD 0).toNat
      if n = 0 ∨ blockSize < n then none
      else if (final.drop (blockSize - n)).all (· == UInt8.ofNat n) then
        some (final.take (blockSize - n))
      else none

/-- A message encrypted in pieces. -/
def encryptPieces (cipher : BlockCipher) (iv : Block) (pieces : List Octets) : Option Octets := do
  let updates ← feed (evpEncryptUpdate (cbcEncrypt cipher)) (evpCipherInit iv) pieces
  some (updates.1 ++ evpEncryptFinal (cbcEncrypt cipher) updates.2)

/-- A message decrypted in pieces. -/
def decryptPieces (cipher : BlockCipher) (iv : Block) (pieces : List Octets) : Option Octets := do
  let updates ← feed (evpDecryptUpdate (cbcDecrypt cipher)) (evpCipherInit iv) pieces
  (evpDecryptFinal updates.2).map (updates.1 ++ ·)

/-- The ciphertext, whose length is `ciphertext_len`. -/
def encrypt (aes : Octets → BlockCipher) (plaintext key : Octets) (iv : Block) : Option Octets := do
  let update ← evpEncryptUpdate (cbcEncrypt (aes key)) (evpCipherInit iv) plaintext
  let ciphertext := update.1 ++ evpEncryptFinal (cbcEncrypt (aes key)) update.2
  if FitsInt ciphertext then some ciphertext else none

/-- The plaintext, whose length is `plaintext_len`. -/
def decrypt (aes : Octets → BlockCipher) (ciphertext key : Octets) (iv : Block) :
    Option Octets := do
  let update ← evpDecryptUpdate (cbcDecrypt (aes key)) (evpCipherInit iv) ciphertext
  let final ← evpDecryptFinal update.2
  let plaintext := update.1 ++ final
  if FitsInt plaintext then some plaintext else none

section Updates

variable {mode : BlockMode} {ctx : CipherCtx} {iv data input out : Octets} {n : Nat}

theorem doCipher_eq (h : input.length = n * blockSize) :
    doCipher mode ctx input =
      ((runBlocks mode n ctx.iv input).1,
        { ctx with iv := (runBlocks mode n ctx.iv input).2 }) := by
  have hn : input.length / blockSize = n := by
    rw [h, blockSize]
    omega
  rw [doCipher, hn]

/-- `inl &= ~(bl - 1)`. -/
theorem whole_blocks (input : Octets) :
    input.length - input.length % blockSize = input.length / blockSize * blockSize := by
  have hdiv := Nat.div_add_mod' input.length blockSize
  omega

theorem doCipher_take (hn : n * blockSize ≤ input.length) :
    doCipher mode ctx (input.take (n * blockSize)) =
      ((runBlocks mode n ctx.iv input).1,
        { ctx with iv := (runBlocks mode n ctx.iv input).2 }) := by
  have hrun : runBlocks mode n ctx.iv (input.take (n * blockSize)) =
      runBlocks mode n ctx.iv input := by
    apply runBlocks_congr
    rw [List.take_take, Nat.min_self]
  rw [doCipher_eq (List.length_take_of_le hn), hrun]

/-- Whole blocks of what is buffered and what comes go through the cipher, and the rest stays. -/
theorem encryptUpdate_eq (hbuf : ctx.buf.length < blockSize)
    (hn : n = (ctx.buf ++ input).length / blockSize) :
    encryptUpdate mode ctx input =
      ((runBlocks mode n ctx.iv (ctx.buf ++ input)).1,
        { ctx with
          iv := (runBlocks mode n ctx.iv (ctx.buf ++ input)).2
          buf := (ctx.buf ++ input).drop (n * blockSize) }) := by
  have hzero {whole : Octets} (h : ctx.buf ++ input = whole) (hlt : whole.length < blockSize) :
      n = 0 := by
    rw [hn, h]
    exact Nat.div_eq_of_lt hlt
  rw [encryptUpdate]
  by_cases hinput : input = []
  · have hn0 := hzero (by rw [hinput, List.append_nil]) hbuf
    rw [if_pos hinput, hinput, List.append_nil, hn0, Nat.zero_mul, List.drop_zero]
    rfl
  · rw [if_neg hinput]
    by_cases hwhole : ctx.buf = [] ∧ input.length % blockSize = 0
    · obtain ⟨hempty, hmod⟩ := hwhole
      rw [hempty, List.nil_append] at hn ⊢
      have hlen : input.length = n * blockSize := by
        rw [hn, Nat.div_mul_cancel (Nat.dvd_of_mod_eq_zero hmod)]
      rw [if_pos ⟨rfl, hmod⟩, doCipher_eq hlen, List.drop_eq_nil_of_le (Nat.le_of_eq hlen), hempty]
    · rw [if_neg hwhole]
      by_cases hshort : ctx.buf ≠ [] ∧ input.length < blockSize - ctx.buf.length
      · have hn0 : n = 0 := by
          refine hzero rfl ?_
          rw [List.length_append]
          omega
        rw [if_pos hshort, hn0, Nat.zero_mul, List.drop_zero]
        rfl
      · rw [if_neg hshort]
        by_cases hempty : ctx.buf = []
        · rw [hempty, List.nil_append] at hn ⊢
          have hle : n * blockSize ≤ input.length := by
            rw [hn]
            exact Nat.div_mul_le_self input.length blockSize
          simp only [if_true, List.drop_zero, whole_blocks, ← hn, doCipher_take hle,
            List.nil_append]
        · have hle : blockSize - ctx.buf.length ≤ input.length :=
            Nat.le_of_not_lt fun hlt => hshort ⟨hempty, hlt⟩
          -- the block that the buffer begins, and what follows it
          obtain ⟨rest, k, hrest, hk⟩ : ∃ rest k,
              rest = input.drop (blockSize - ctx.buf.length) ∧ k = rest.length / blockSize :=
            ⟨_, _, rfl, rfl⟩
          have hblock : (ctx.buf ++ input.take (blockSize - ctx.buf.length)).length =
              1 * blockSize := by
            rw [List.length_append, List.length_take_of_le hle]
            omega
          have hsplit : ctx.buf ++ input =
              ctx.buf ++ input.take (blockSize - ctx.buf.length) ++ rest := by
            rw [List.append_assoc, hrest, List.take_append_drop]
          have hn1 : n = 1 + k := by
            rw [hn, hsplit, List.length_append, hblock, hk]
            simp only [blockSize]
            omega
          have hk' : k * blockSize ≤ rest.length := by
            rw [hk]
            exact Nat.div_mul_le_self rest.length blockSize
          have hdrop : (ctx.buf ++ input.take (blockSize - ctx.buf.length) ++ rest).drop
              (1 * blockSize) = rest := List.drop_left' hblock
          simp only [if_neg hempty, doCipher_eq hblock, ← hrest, whole_blocks, ← hk,
            doCipher_take hk']
          rw [hn1, hsplit, runBlocks_add, hdrop, runBlocks_append (Nat.le_of_eq hblock.symm),
            Nat.add_mul, ← List.drop_drop, hdrop]

end Updates

/-- After `data`, in any pieces: what came out, and what the context keeps. -/
structure Absorbed (mode : BlockMode) (iv data : Octets) (ctx : CipherCtx) (out : Octets) :
    Prop where
  out_eq : out = (runBlocks mode (data.length / blockSize) iv data).1
  iv_eq : ctx.iv = (runBlocks mode (data.length / blockSize) iv data).2
  buf_eq : ctx.buf = data.drop (data.length / blockSize * blockSize)

/-- Decryption holds back the last block, where there is nothing behind it. -/
structure Held (mode : BlockMode) (iv data : Octets) (ctx : CipherCtx) (out : Octets) : Prop where
  absorbed : Absorbed mode iv data ctx (out ++ ctx.final.getD [])
  final_isSome : ctx.final.isSome ↔ data ≠ [] ∧ ctx.buf = []
  length_final : ∀ final, ctx.final = some final → final.length = blockSize

section Streams

variable {mode : BlockMode} {ctx : CipherCtx} {iv data input out : Octets}

theorem absorbed_init : Absorbed mode iv [] (evpCipherInit iv) [] := ⟨rfl, rfl, rfl⟩

theorem held_init : Held mode iv [] (evpCipherInit iv) [] where
  absorbed := absorbed_init
  final_isSome := ⟨fun h => (Bool.false_ne_true h).elim, fun h => (h.1 rfl).elim⟩
  length_final := by
    intro final h
    cases h

theorem Absorbed.length_buf (h : Absorbed mode iv data ctx out) :
    ctx.buf.length = data.length % blockSize := by
  have hdiv := Nat.div_add_mod' data.length blockSize
  rw [h.buf_eq, List.length_drop]
  omega

theorem Absorbed.length_buf_lt (h : Absorbed mode iv data ctx out) :
    ctx.buf.length < blockSize := by
  rw [h.length_buf]
  exact Nat.mod_lt _ (by decide)

theorem Absorbed.update (h : Absorbed mode iv data ctx out) :
    Absorbed mode iv (data ++ input) (encryptUpdate mode ctx input).2
      (out ++ (encryptUpdate mode ctx input).1) := by
  have hbuf := h.length_buf_lt
  obtain ⟨n, hn⟩ : ∃ n, n = data.length / blockSize := ⟨_, rfl⟩
  obtain ⟨k, hk⟩ : ∃ k, k = (ctx.buf ++ input).length / blockSize := ⟨_, rfl⟩
  obtain ⟨rfl, hiv, hdrop⟩ := h
  rw [← hn] at hiv hdrop ⊢
  have hle : n * blockSize ≤ data.length := by
    rw [hn]
    exact Nat.div_mul_le_self data.length blockSize
  have hrest : (data ++ input).drop (n * blockSize) = ctx.buf ++ input := by
    rw [List.drop_append_of_le_length hle, hdrop]
  have hsum : (data ++ input).length / blockSize = n + k := by
    have hlen := congrArg List.length hrest
    rw [List.length_drop] at hlen
    have hle' : n * blockSize ≤ (data ++ input).length := by
      rw [List.length_append]
      omega
    rw [hk, ← hlen]
    simp only [blockSize] at hle' ⊢
    omega
  have hrun : runBlocks mode (n + k) iv (data ++ input) = _ := runBlocks_add
  rw [runBlocks_append hle, hrest, ← hiv] at hrun
  rw [encryptUpdate_eq hbuf hk]
  constructor
  · rw [hsum, hrun]
  · rw [hsum, hrun]
  · rw [hsum, Nat.add_mul, ← List.drop_drop, hrest]

theorem Absorbed.length_iv (hmode : BlockMode.KeepsLength mode) (hiv : iv.length = blockSize)
    (h : Absorbed mode iv data ctx out) : ctx.iv.length = blockSize := by
  rw [h.iv_eq]
  exact (length_runBlocks hmode hiv (Nat.div_mul_le_self data.length blockSize)).2

theorem Absorbed.length_update (hmode : BlockMode.KeepsLength mode) (hiv : iv.length = blockSize)
    (h : Absorbed mode iv data ctx out) :
    (encryptUpdate mode ctx input).1.length =
      (ctx.buf ++ input).length / blockSize * blockSize := by
  rw [encryptUpdate_eq h.length_buf_lt rfl]
  exact (length_runBlocks hmode (h.length_iv hmode hiv) (Nat.div_mul_le_self _ _)).1

/-- A context that keeps nothing back has put out all its blocks, the last of them just now. -/
theorem Absorbed.length_whole (hmode : BlockMode.KeepsLength mode)
    (hiv : iv.length = blockSize) (h : Absorbed mode iv data ctx out) (hinput : input ≠ [])
    (hempty : (encryptUpdate mode ctx input).2.buf = []) :
    blockSize ≤ (encryptUpdate mode ctx input).1.length := by
  rw [h.length_update hmode hiv]
  rw [encryptUpdate_eq h.length_buf_lt rfl] at hempty
  have hdrop := List.drop_eq_nil_iff.mp hempty
  have hpos := List.length_pos_iff.mpr hinput
  rw [List.length_append] at hdrop ⊢
  simp only [blockSize] at hdrop ⊢
  omega

/-- No length overflows as long as what is buffered and what comes fits an `int`. -/
theorem Absorbed.evpUpdate (hmode : BlockMode.KeepsLength mode) (hiv : iv.length = blockSize)
    (h : Absorbed mode iv data ctx out) (hfits : ctx.buf.length + input.length < 2 ^ 31) :
    evpEncryptUpdate mode ctx input = some (encryptUpdate mode ctx input) := by
  refine if_pos ⟨?_, ?_⟩
  · show input.length < 2 ^ 31
    omega
  · have hlen : (encryptUpdate mode ctx input).1.length = _ := h.length_update hmode hiv
    rw [List.length_append] at hlen
    have hle := Nat.div_mul_le_self (ctx.buf.length + input.length) blockSize
    show (encryptUpdate mode ctx input).1.length < 2 ^ 31
    omega

/-- What is kept of the input is no more than a block. -/
theorem Held.length_kept (h : Held mode iv data ctx out) :
    (ctx.final.getD []).length + ctx.buf.length ≤ blockSize := by
  cases hfinal : ctx.final with
  | none =>
    rw [Option.getD_none, List.length_nil, Nat.zero_add]
    exact Nat.le_of_lt h.absorbed.length_buf_lt
  | some final =>
    have hempty := (h.final_isSome.mp (by rw [hfinal]; rfl)).2
    rw [Option.getD_some, h.length_final final hfinal, hempty, List.length_nil]
    exact Nat.le_refl _

theorem Held.update (hmode : BlockMode.KeepsLength mode) (hiv : iv.length = blockSize)
    (h : Held mode iv data ctx out)
    (hfits : (ctx.final.getD []).length + ctx.buf.length + input.length < 2 ^ 31) :
    ∃ now, evpDecryptUpdate mode ctx input = some now ∧
      Held mode iv (data ++ input) now.2 (out ++ now.1) := by
  by_cases hinput : input = []
  · refine ⟨([], ctx), if_pos hinput, ?_⟩
    rw [hinput, List.append_nil, List.append_nil]
    exact h
  have hdata : data ++ input ≠ [] := List.append_ne_nil_of_right_ne_nil data hinput
  have hupdate : Absorbed mode iv (data ++ input) _ _ := h.absorbed.update
  have hout := hupdate.out_eq
  have hlen : (encryptUpdate mode ctx input).1.length = _ := h.absorbed.length_update hmode hiv
  have hle := Nat.div_mul_le_self (ctx.buf ++ input).length blockSize
  rw [List.length_append] at hlen hle
  have hroom : ∀ outl, FitsInt
      (ctx.final.getD [] ++ (encryptUpdate mode ctx input).1.take outl) := by
    intro outl
    have htake := List.length_take_le' outl (encryptUpdate mode ctx input).1
    show List.length _ < 2 ^ 31
    rw [List.length_append]
    omega
  have hroom' : ctx.buf.length + input.length < 2 ^ 31 := by omega
  have hupd := h.absorbed.evpUpdate hmode hiv hroom'
  simp only [evpDecryptUpdate, if_neg hinput, hupd, Option.bind_eq_bind, Option.bind_some,
    if_pos (hroom _)]
  by_cases hempty : (encryptUpdate mode ctx input).2.buf = []
  · have hwhole := h.absorbed.length_whole hmode hiv hinput hempty
    simp only [if_pos hempty]
    refine ⟨_, rfl, ⟨?_, hupdate.iv_eq, hupdate.buf_eq⟩, ?_, ?_⟩
    · rw [← hout, Option.getD_some, List.append_assoc, List.append_assoc, List.append_assoc,
        List.take_append_drop]
    · exact ⟨fun _ => ⟨hdata, hempty⟩, fun _ => rfl⟩
    · intro final hfinal
      obtain rfl := Option.some.inj hfinal
      rw [List.length_drop]
      omega
  · simp only [if_neg hempty, List.take_length]
    refine ⟨_, rfl, ⟨?_, hupdate.iv_eq, hupdate.buf_eq⟩, ?_, ?_⟩
    · rw [← hout, Option.getD_none, List.append_nil, List.append_assoc]
    · exact ⟨fun h => (Bool.false_ne_true h).elim, fun h => (hempty h.2).elim⟩
    · intro final hfinal
      cases hfinal

theorem absorbed_feed (hmode : BlockMode.KeepsLength mode) (hiv : iv.length = blockSize)
    {pieces : List Octets} (hfits : ∀ piece ∈ pieces, piece.length + blockSize < 2 ^ 31) :
    ∃ r, feed (evpEncryptUpdate mode) (evpCipherInit iv) pieces = some r ∧
      Absorbed mode iv pieces.flatten r.2 r.1 := by
  refine feed_invariant (R := Absorbed mode iv) (fun input hinput h => ?_) hfits absorbed_init
  have hlt := h.length_buf_lt
  exact ⟨_, h.evpUpdate hmode hiv (by omega), h.update⟩

theorem held_feed (hmode : BlockMode.KeepsLength mode) (hiv : iv.length = blockSize)
    {pieces : List Octets} (hfits : ∀ piece ∈ pieces, piece.length + blockSize < 2 ^ 31) :
    ∃ r, feed (evpDecryptUpdate mode) (evpCipherInit iv) pieces = some r ∧
      Held mode iv pieces.flatten r.2 r.1 := by
  refine feed_invariant (R := Held mode iv) (fun input hinput h => ?_) hfits held_init
  have hkept := h.length_kept
  exact h.update hmode hiv (by omega)

theorem Absorbed.encryptFinal (h : Absorbed mode iv data ctx out) :
    out ++ evpEncryptFinal mode ctx =
      (runBlocks mode (data.length / blockSize + 1) iv (data ++ padding data.length)).1 := by
  have hle := Nat.div_mul_le_self data.length blockSize
  have hlast : (data ++ padding data.length).drop (data.length / blockSize * blockSize) =
      ctx.buf ++ List.replicate (blockSize - ctx.buf.length)
        (UInt8.ofNat (blockSize - ctx.buf.length)) := by
    rw [List.drop_append_of_le_length hle, h.length_buf, h.buf_eq, padding]
  have hlen : (ctx.buf ++ List.replicate (blockSize - ctx.buf.length)
      (UInt8.ofNat (blockSize - ctx.buf.length))).length = 1 * blockSize := by
    have hlt := Nat.mod_lt data.length (show 0 < blockSize by decide)
    rw [List.length_append, List.length_replicate, h.length_buf]
    omega
  show out ++ (doCipher mode ctx _).1 = _
  rw [doCipher_eq hlen, runBlocks_add, runBlocks_append hle, hlast, ← h.iv_eq, ← h.out_eq]

/-- The check accepts a block just if it ends in padding. -/
theorem evpDecryptFinal_eq_some {final q : Octets} (hbuf : ctx.buf = [])
    (hfinal : ctx.final = some final) (hlen : final.length = blockSize) :
    evpDecryptFinal ctx = some q ↔ final = q ++ padding q.length := by
  have hunfold : evpDecryptFinal ctx =
      let n := (final.getLastD 0).toNat
      if n = 0 ∨ blockSize < n then none
      else if (final.drop (blockSize - n)).all (· == UInt8.ofNat n) then
        some (final.take (blockSize - n))
      else none := by
    rw [evpDecryptFinal, if_neg (not_not.mpr hbuf), hfinal, Option.bind_some]
  rw [hunfold]
  constructor
  · intro h
    obtain ⟨n, hn⟩ : ∃ n, n = (final.getLastD 0).toNat := ⟨_, rfl⟩
    simp only [← hn] at h
    split_ifs at h with hbad hall
    obtain rfl := Option.some.inj h
    have hq : (final.take (blockSize - n)).length = blockSize - n := by
      rw [List.length_take]
      omega
    have hdrop : final.drop (blockSize - n) = List.replicate n (UInt8.ofNat n) := by
      rw [List.eq_replicate_iff]
      refine ⟨?_, fun b hb => eq_of_beq (List.all_eq_true.mp hall b hb)⟩
      rw [List.length_drop]
      omega
    rw [hq, padding_sub (by omega) (by omega), ← hdrop, List.take_append_drop]
  · intro h
    have hsum : q.length + (blockSize - q.length % blockSize) = blockSize := by
      have hlen' := congrArg List.length h
      rw [List.length_append, length_padding, hlen] at hlen'
      exact hlen'.symm
    obtain ⟨n, hn⟩ : ∃ n, n = blockSize - q.length := ⟨_, rfl⟩
    have hq : q.length = blockSize - n := by omega
    have hlt := Nat.mod_lt q.length (show 0 < blockSize by decide)
    rw [hq, padding_sub (by omega) (by omega)] at h
    have hlast : (final.getLastD 0).toNat = n := by
      obtain ⟨m, rfl⟩ : ∃ m, n = m + 1 := Nat.exists_eq_succ_of_ne_zero (by omega)
      have hle : m + 1 ≤ blockSize := by omega
      have hbyte : m + 1 < UInt8.size := Nat.lt_of_le_of_lt hle (by decide)
      rw [h, List.replicate_succ', ← List.append_assoc, List.getLastD_concat,
        UInt8.toNat_ofNat_of_lt' hbyte]
    have hall : (final.drop (blockSize - n)).all (· == UInt8.ofNat n) = true := by
      rw [h, List.drop_left' hq, List.all_replicate, beq_self_eq_true, ite_self]
    simp only [hlast]
    rw [if_neg (by omega), if_pos hall, h, List.take_left' hq]

theorem Held.decryptFinal {p : Octets} (hmode : BlockMode.KeepsLength mode)
    (hiv : iv.length = blockSize) (h : Held mode iv data ctx out) :
    (evpDecryptFinal ctx).map (out ++ ·) = some p ↔
      ∃ n, data.length = n * blockSize ∧ (runBlocks mode n iv data).1 = p ++ padding p.length := by
  have hbuf := h.absorbed.length_buf
  by_cases hempty : ctx.buf = []
  · by_cases hdata : data = []
    · have hnone : ctx.final = none := by
        cases hfinal : ctx.final with
        | none => rfl
        | some final =>
          have hsome := h.final_isSome.mp (by rw [hfinal]; rfl)
          exact absurd hdata hsome.1
      have hlast : evpDecryptFinal ctx = none := by
        rw [evpDecryptFinal, hnone]
        exact ite_self none
      rw [hlast]
      constructor
      · intro h
        cases h
      · rintro ⟨n, hn, hp⟩
        have hzero : n = 0 := by
          rw [hdata, List.length_nil, blockSize] at hn
          omega
        have hlen := congrArg List.length hp
        rw [length_padded, hzero, Nat.succ_mul, blockSize] at hlen
        simp only [runBlocks, List.length_nil] at hlen
        omega
    · obtain ⟨final, hfinal⟩ := Option.isSome_iff_exists.mp (h.final_isSome.mpr ⟨hdata, hempty⟩)
      have hlast := h.length_final final hfinal
      have hout := h.absorbed.out_eq
      rw [hfinal, Option.getD_some] at hout
      obtain ⟨n, hn⟩ : ∃ n, data.length = n * blockSize := by
        refine ⟨data.length / blockSize, (Nat.div_mul_cancel (Nat.dvd_of_mod_eq_zero ?_)).symm⟩
        rw [← hbuf, hempty, List.length_nil]
      have hblocks : data.length / blockSize = n := by
        rw [hn, blockSize]
        omega
      rw [hblocks] at hout
      have hlen := congrArg List.length hout
      rw [(length_runBlocks hmode hiv (Nat.le_of_eq hn.symm)).1, List.length_append, hlast] at hlen
      have hout' : out.length = (n - 1) * blockSize := by
        rw [Nat.sub_one_mul]
        omega
      have hiff : (evpDecryptFinal ctx).map (out ++ ·) = some p ↔
          ∃ q, final = q ++ padding q.length ∧ out ++ q = p := by
        rw [Option.map_eq_some_iff]
        exact exists_congr fun q => and_congr_left' (evpDecryptFinal_eq_some hempty hfinal hlast)
      rw [hiff, padded_last_block hout' hlast, hout]
      constructor
      · intro hp
        exact ⟨n, hn, hp⟩
      · rintro ⟨m, hm, hp⟩
        have hmn : m = n := by
          rw [hn, blockSize] at hm
          omega
        rwa [hmn] at hp
  · have hnone : evpDecryptFinal ctx = none := by
      rw [evpDecryptFinal, if_pos hempty]
    rw [hnone]
    constructor
    · intro h
      cases h
    · rintro ⟨n, hn, -⟩
      refine absurd (List.eq_nil_of_length_eq_zero ?_) hempty
      rw [hbuf, hn, Nat.mul_mod_left]

end Streams

section Messages

variable {aes : Octets → BlockCipher} {cipher : BlockCipher} {iv : Block}
  {pieces : List Octets} {p plaintext key : Octets}

theorem encryptPieces_eq (hfits : ∀ piece ∈ pieces, piece.length + blockSize < 2 ^ 31) :
    encryptPieces cipher iv pieces = some (cbcPadded cipher iv pieces.flatten) := by
  have hmode : BlockMode.KeepsLength (cbcEncrypt cipher) := keepsLength_cbcEncrypt
  obtain ⟨r, hr, h⟩ := absorbed_feed hmode iv.2 hfits
  simp only [encryptPieces, hr, Option.bind_eq_bind, Option.bind_some]
  exact congrArg some h.encryptFinal

theorem decryptPieces_eq_some (hfits : ∀ piece ∈ pieces, piece.length + blockSize < 2 ^ 31) :
    decryptPieces cipher iv pieces = some p ↔ pieces.flatten = cbcPadded cipher iv p := by
  have hmode : BlockMode.KeepsLength (cbcDecrypt cipher) := keepsLength_cbcDecrypt
  obtain ⟨r, hr, h⟩ := held_feed hmode iv.2 hfits
  simp only [decryptPieces, hr, Option.bind_eq_bind, Option.bind_some]
  rw [eq_cbcPadded_iff iv.2]
  exact h.decryptFinal hmode iv.2

/-- A message is encrypted unless the length of its ciphertext overflows. -/
theorem encrypt_eq :
    encrypt aes plaintext key iv =
      if FitsInt (cbcPadded (aes key) iv plaintext) then some (cbcPadded (aes key) iv plaintext)
      else none := by
  have hinit : Absorbed (cbcEncrypt (aes key)) iv.1 [] (evpCipherInit iv) [] := absorbed_init
  by_cases hfits : FitsInt plaintext
  · have hroom : 0 + plaintext.length < 2 ^ 31 := by rwa [Nat.zero_add]
    have hupdate := hinit.evpUpdate keepsLength_cbcEncrypt iv.2 hroom
    have hdone : Absorbed (cbcEncrypt (aes key)) iv.1 ([] ++ plaintext) _ _ := hinit.update
    have hfinal := hdone.encryptFinal
    rw [List.nil_append, List.nil_append] at hfinal
    simp only [encrypt, hupdate, Option.bind_eq_bind, Option.bind_some]
    rw [hfinal]
    rfl
  · have hnone : evpEncryptUpdate (cbcEncrypt (aes key)) (evpCipherInit iv) plaintext = none :=
      if_neg fun h => hfits h.1
    have hlong : ¬ FitsInt (cbcPadded (aes key) iv plaintext) := by
      rw [FitsInt, length_cbcPadded iv.2, blockSize]
      rw [FitsInt] at hfits
      omega
    rw [if_neg hlong, encrypt, hnone]
    rfl

theorem decrypt_eq_some :
    decrypt aes ciphertext key iv = some p ↔
      FitsInt ciphertext ∧ ciphertext = cbcPadded (aes key) iv p := by
  by_cases hfits : FitsInt ciphertext
  · have hinit : Held (cbcDecrypt (aes key)) iv.1 [] (evpCipherInit iv) [] := held_init
    have hroom : 0 + 0 + ciphertext.length < 2 ^ 31 := by rwa [Nat.zero_add]
    obtain ⟨now, hnow, h⟩ := hinit.update keepsLength_cbcDecrypt iv.2 hroom
    rw [List.nil_append, List.nil_append] at h
    have hfinal : (evpDecryptFinal now.2).map (now.1 ++ ·) = some p ↔ _ :=
      h.decryptFinal keepsLength_cbcDecrypt iv.2
    rw [← eq_cbcPadded_iff iv.2] at hfinal
    simp only [hfits, true_and]
    rw [← hfinal]
    simp only [decrypt, hnow, Option.bind_eq_bind, Option.bind_some]
    cases hlast : evpDecryptFinal now.2 with
    | none => simp only [Option.bind_none, Option.map_none]
    | some final =>
      rw [hlast] at hfinal
      simp only [Option.bind_some, Option.map_some, Option.some.injEq] at hfinal ⊢
      constructor
      · intro h
        split at h
        · exact Option.some.inj h
        · cases h
      · intro h
        -- the message is shorter than its ciphertext
        have hint : FitsInt (now.1 ++ final) := by
          have hlen := congrArg List.length (hfinal.mp h)
          rw [length_cbcPadded iv.2, blockSize] at hlen
          rw [h, FitsInt]
          rw [FitsInt] at hfits
          omega
        rw [if_pos hint, h]
  · have hnone : decrypt aes ciphertext key iv = none := by
      have hinput : ciphertext ≠ [] := by
        rintro rfl
        exact hfits (by decide)
      have hupdate : evpEncryptUpdate (cbcDecrypt (aes key)) (evpCipherInit iv) ciphertext = none :=
        if_neg fun h => hfits h.1
      simp only [decrypt, evpDecryptUpdate, if_neg hinput, hupdate, Option.bind_eq_bind,
        Option.bind_none]
    rw [hnone]
    simp only [hfits, false_and, reduceCtorEq]

end Messages

/-- Decryption gives a message back just for what encryption makes of it, in whole blocks, and
fails for anything else; encryption fails just where the ciphertext is too long for an `int`. -/
theorem decrypt_encrypt (aes : Octets → BlockCipher) (key : Octets) (iv : Block) :
    (∀ plaintext ciphertext, decrypt aes ciphertext key iv = some plaintext ↔
        encrypt aes plaintext key iv = some ciphertext) ∧
      ∀ plaintext, (encrypt aes plaintext key iv).map List.length =
        if plaintext.length + blockSize < 2 ^ 31 then
          some ((plaintext.length / blockSize + 1) * blockSize)
        else none := by
  constructor
  · intro plaintext ciphertext
    rw [decrypt_eq_some, encrypt_eq]
    constructor
    · rintro ⟨hfits, rfl⟩
      exact if_pos hfits
    · intro h
      split at h
      · next hfits =>
        obtain rfl := Option.some.inj h
        exact ⟨hfits, rfl⟩
      · cases h
  · intro plaintext
    have hiff : FitsInt (cbcPadded (aes key) iv plaintext) ↔
        plaintext.length + blockSize < 2 ^ 31 := by
      rw [FitsInt, length_cbcPadded iv.2, blockSize]
      omega
    rw [encrypt_eq]
    by_cases hfits : FitsInt (cbcPadded (aes key) iv plaintext)
    · rw [if_pos hfits, if_pos (hiff.mp hfits), Option.map_some, length_cbcPadded iv.2]
    · rw [if_neg hfits, if_neg fun h => hfits (hiff.mpr h), Option.map_none]

/-- A key of one block that is added to every block. -/
def xorCipher (key : Block) : BlockCipher where
  encrypt b := xorBytes b key.1
  decrypt b := xorBytes b key.1
  length_encrypt b hb := by rw [length_xorBytes (hb.trans key.2.symm), hb]
  length_decrypt b hb := by rw [length_xorBytes (hb.trans key.2.symm), hb]
  decrypt_encrypt b hb := xorBytes_xorBytes (hb.trans key.2.symm)
  encrypt_decrypt b hb := xorBytes_xorBytes (hb.trans key.2.symm)

/-- How a message is cut into pieces, on either side, does not matter, unless the lengths
overflow. -/
theorem pieces_agree (aes : Octets → BlockCipher) (key : Octets) (iv : Block)
    (pieces : List Octets) (hlen : pieces.flatten.length + blockSize < 2 ^ 31) :
    encryptPieces (aes key) iv pieces = encrypt aes pieces.flatten key iv ∧
      decryptPieces (aes key) iv pieces = decrypt aes pieces.flatten key iv := by
  have hfits : ∀ piece ∈ pieces, piece.length + blockSize < 2 ^ 31 := fun piece hpiece => by
    have hle := (List.sublist_flatten_of_mem hpiece).length_le
    omega
  constructor
  · have hlong : FitsInt (cbcPadded (aes key) iv pieces.flatten) := by
      rw [FitsInt, length_cbcPadded iv.2, blockSize]
      rw [blockSize] at hlen
      omega
    rw [encryptPieces_eq hfits, encrypt_eq, if_pos hlong]
  · apply Option.ext
    intro plaintext
    have hint : FitsInt pieces.flatten := by
      rw [FitsInt]
      omega
    rw [decryptPieces_eq_some hfits, decrypt_eq_some]
    simp only [hint, true_and]

theorem pieces_agree_three :
    let cipher := xorCipher ⟨List.replicate 16 170, rfl⟩
    let iv : Block := ⟨(List.range 16).map UInt8.ofNat, rfl⟩
    let pieces := [[1, 2], [], List.replicate 16 7]
    pieces.flatten.length + blockSize < 2 ^ 31 ∧
      encryptPieces cipher iv pieces = encrypt (fun _ => cipher) pieces.flatten [] iv ∧
      decryptPieces cipher iv pieces = decrypt (fun _ => cipher) pieces.flatten [] iv :=
  ⟨by decide, pieces_agree (fun _ => xorCipher _) [] _ _ (by decide)⟩

end BaseCode.Encrypt
