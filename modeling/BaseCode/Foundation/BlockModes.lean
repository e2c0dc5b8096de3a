import Mathlib.Init

/-!
# Modes of block ciphers

A mode of operation turns a block into a block and keeps a block between calls, so it runs over
any whole number of blocks, in one piece or in several. Cipher block chaining in both directions
is one, and the two undo each other. Padding fills the last block with the number of bytes that
were missing, and always adds some.
-/

namespace BaseCode.Foundation

abbrev Octets := List UInt8

def blockSize : Nat := 16

/-- An initialisation vector is one. -/
abbrev Block := { b : Octets // b.length = blockSize }

/-- A block cipher under one key. -/
structure BlockCipher where
  encrypt : Octets → Octets
  decrypt : Octets → Octets
  length_encrypt : ∀ b, b.length = blockSize → (encrypt b).length = blockSize
  length_decrypt : ∀ b, b.length = blockSize → (decrypt b).length = blockSize
  decrypt_encrypt : ∀ b, b.length = blockSize → decrypt (encrypt b) = b
  encrypt_decrypt : ∀ b, b.length = blockSize → encrypt (decrypt b) = b

/-- From the block kept and a block of input, a block of output and the block kept. -/
abbrev BlockMode := Octets → Octets → Octets × Octets

/-- Blocks become blocks. -/
def BlockMode.KeepsLength (mode : BlockMode) : Prop :=
  ∀ iv b, iv.length = blockSize → b.length = blockSize →
    (mode iv b).1.length = blockSize ∧ (mode iv b).2.length = blockSize

/-- A mode on the first `n` blocks of an input. -/
def runBlocks (mode : BlockMode) : Nat → Octets → Octets → Octets × Octets
  | 0, iv, _ => ([], iv)
  | n + 1, iv, input =>
    let first := mode iv (input.take blockSize)
    let rest := runBlocks mode n first.2 (input.drop blockSize)
    (first.1 ++ rest.1, rest.2)

section Runs

variable {mode : BlockMode} {m n : Nat} {iv input input' : Octets}

/-- A run in two pieces. -/
theorem runBlocks_add :
    runBlocks mode (m + n) iv input =
      ((runBlocks mode m iv input).1 ++
          (runBlocks mode n (runBlocks mode m iv input).2 (input.drop (m * blockSize))).1,
        (runBlocks mode n (runBlocks mode m iv input).2 (input.drop (m * blockSize))).2) := by
  induction m generalizing iv input with
  | zero => rw [Nat.zero_add, Nat.zero_mul, List.drop_zero]; rfl
  | succ m ih =>
    have hsum : m + 1 + n = (m + n) + 1 := by omega
    have hdrop : blockSize + m * blockSize = (m + 1) * blockSize := by
      rw [Nat.succ_mul, Nat.add_comm]
    rw [hsum]
    simp only [runBlocks, ih, List.drop_drop, hdrop, List.append_assoc]

/-- Only the blocks that it runs over matter. -/
theorem runBlocks_congr (h : input.take (n * blockSize) = input'.take (n * blockSize)) :
    runBlocks mode n iv input = runBlocks mode n iv input' := by
  induction n generalizing iv input input' with
  | zero => rfl
  | succ n ih =>
    have hfirst : input.take blockSize = input'.take blockSize := by
      have hle : blockSize ≤ (n + 1) * blockSize := by
        rw [Nat.succ_mul]
        omega
      have h' := congrArg (List.take blockSize) h
      rwa [List.take_take, List.take_take, Nat.min_eq_left hle] at h'
    have hrest : (input.drop blockSize).take (n * blockSize) =
        (input'.drop blockSize).take (n * blockSize) := by
      have h' := congrArg (List.drop blockSize) h
      rw [List.drop_take, List.drop_take, Nat.succ_mul, Nat.add_sub_cancel] at h'
      exact h'
    simp only [runBlocks, hfirst, ih hrest]

theorem runBlocks_append (h : n * blockSize ≤ input.length) :
    runBlocks mode n iv (input ++ input') = runBlocks mode n iv input :=
  runBlocks_congr (List.take_append_of_le_length h)

theorem length_runBlocks (hmode : BlockMode.KeepsLength mode)
    (hiv : iv.length = blockSize) (h : n * blockSize ≤ input.length) :
    (runBlocks mode n iv input).1.length = n * blockSize ∧
      (runBlocks mode n iv input).2.length = blockSize := by
  induction n generalizing iv input with
  | zero =>
    rw [Nat.zero_mul]
    exact ⟨rfl, hiv⟩
  | succ n ih =>
    rw [Nat.succ_mul] at h
    have hblock : (input.take blockSize).length = blockSize := by
      rw [List.length_take]
      omega
    obtain ⟨hout, hiv'⟩ := hmode iv _ hiv hblock
    have hle : n * blockSize ≤ (input.drop blockSize).length := by
      rw [List.length_drop]
      omega
    obtain ⟨hrest, hlast⟩ := ih hiv' hle
    refine ⟨?_, hlast⟩
    rw [runBlocks, List.length_append, hout, hrest, Nat.succ_mul, Nat.add_comm]

end Runs

/-- Byte by byte. -/
def xorBytes (a b : Octets) : Octets := List.zipWith (· ^^^ ·) a b

theorem length_xorBytes {a b : Octets} (h : a.length = b.length) :
    (xorBytes a b).length = a.length := by
  rw [xorBytes, List.length_zipWith, h, Nat.min_self]

theorem xorBytes_xorBytes {a b : Octets} (h : a.length = b.length) :
    xorBytes (xorBytes a b) b = a := by
  induction a generalizing b with
  | nil => rfl
  | cons x a ih =>
    cases b with
    | nil => cases h
    | cons y b =>
      have htail := ih (Nat.succ.inj h)
      simp only [xorBytes, List.zipWith_cons_cons] at htail ⊢
      rw [htail, UInt8.xor_assoc, UInt8.xor_self, UInt8.xor_zero]

/-- Cipher block chaining. -/
def cbcEncrypt (cipher : BlockCipher) : BlockMode := fun iv block =>
  let out := cipher.encrypt (xorBytes block iv)
  (out, out)

def cbcDecrypt (cipher : BlockCipher) : BlockMode := fun iv block =>
  (xorBytes (cipher.decrypt block) iv, block)

section Chaining

variable {cipher : BlockCipher} {iv input : Octets} {n : Nat}

theorem keepsLength_cbcEncrypt : BlockMode.KeepsLength (cbcEncrypt cipher) := by
  intro iv b hiv hb
  have hlen := cipher.length_encrypt _ ((length_xorBytes (hb.trans hiv.symm)).trans hb)
  exact ⟨hlen, hlen⟩

theorem keepsLength_cbcDecrypt : BlockMode.KeepsLength (cbcDecrypt cipher) := by
  intro iv b hiv hb
  have hlen := cipher.length_decrypt b hb
  exact ⟨(length_xorBytes (hlen.trans hiv.symm)).trans hlen, hb⟩

/-- A run over whole blocks, and then one with a mode that undoes each of them. -/
theorem runBlocks_undo {mode back : BlockMode}
    (hmode : BlockMode.KeepsLength mode)
    (hback : ∀ iv b, iv.length = blockSize → b.length = blockSize →
      back iv (mode iv b).1 = (b, (mode iv b).2))
    (hiv : iv.length = blockSize) (hlen : input.length = n * blockSize) :
    (runBlocks back n iv (runBlocks mode n iv input).1).1 = input := by
  induction n generalizing iv input with
  | zero =>
    rw [Nat.zero_mul] at hlen
    rw [List.eq_nil_of_length_eq_zero hlen]
    rfl
  | succ n ih =>
    rw [Nat.succ_mul] at hlen
    have hblock : (input.take blockSize).length = blockSize := by
      rw [List.length_take]
      omega
    have hrest : (input.drop blockSize).length = n * blockSize := by
      rw [List.length_drop]
      omega
    obtain ⟨hout, hiv'⟩ := hmode iv _ hiv hblock
    have hundo := hback iv _ hiv hblock
    simp only [runBlocks, List.take_left' hout, List.drop_left' hout, hundo, ih hiv' hrest,
      List.take_append_drop]

theorem cbcDecrypt_cbcEncrypt (hiv : iv.length = blockSize) (hlen : input.length = n * blockSize) :
    (runBlocks (cbcDecrypt cipher) n iv (runBlocks (cbcEncrypt cipher) n iv input).1).1 =
      input := by
  refine runBlocks_undo keepsLength_cbcEncrypt (fun iv b hiv hb => ?_) hiv hlen
  have hx := length_xorBytes (hb.trans hiv.symm)
  rw [cbcDecrypt, cbcEncrypt, cipher.decrypt_encrypt _ (hx.trans hb),
    xorBytes_xorBytes (hb.trans hiv.symm)]

theorem cbcEncrypt_cbcDecrypt (hiv : iv.length = blockSize) (hlen : input.length = n * blockSize) :
    (runBlocks (cbcEncrypt cipher) n iv (runBlocks (cbcDecrypt cipher) n iv input).1).1 =
      input := by
  refine runBlocks_undo keepsLength_cbcDecrypt (fun iv b hiv hb => ?_) hiv hlen
  have hd := cipher.length_decrypt b hb
  rw [cbcEncrypt, cbcDecrypt, xorBytes_xorBytes (hd.trans hiv.symm), cipher.encrypt_decrypt b hb]

end Chaining

/-- What is appended to `m` bytes to fill the last block. -/
def padding (m : Nat) : Octets :=
  List.replicate (blockSize - m % blockSize) (UInt8.ofNat (blockSize - m % blockSize))

section Padding

variable {p q out last : Octets} {k m : Nat}

theorem length_padding : (padding m).length = blockSize - m % blockSize := List.length_replicate

theorem length_padded :
    (p ++ padding p.length).length = (p.length / blockSize + 1) * blockSize := by
  rw [List.length_append, length_padding, blockSize]
  omega

theorem padding_add : padding (k * blockSize + m) = padding m := by
  have hmod : (k * blockSize + m) % blockSize = m % blockSize := by
    rw [blockSize]
    omega
  rw [padding, hmod, padding]

theorem padding_sub (hpos : m ≠ 0) (hle : m ≤ blockSize) :
    padding (blockSize - m) = List.replicate m (UInt8.ofNat m) := by
  have hm : blockSize - (blockSize - m) % blockSize = m := by
    rw [Nat.mod_eq_of_lt (by omega)]
    omega
  rw [padding, hm]

/-- Only the last block shows where the padding begins. -/
theorem padded_last_block (hout : out.length = k * blockSize) (hlast : last.length = blockSize) :
    (∃ q, last = q ++ padding q.length ∧ out ++ q = p) ↔ out ++ last = p ++ padding p.length := by
  constructor
  · rintro ⟨q, rfl, rfl⟩
    rw [List.length_append, hout, padding_add, List.append_assoc]
  · intro h
    have hlen := congrArg List.length h
    rw [length_padded, List.length_append, hout, hlast] at hlen
    have hle : out.length ≤ p.length := by
      rw [hout]
      simp only [blockSize] at hlen ⊢
      omega
    obtain ⟨q, rfl⟩ : ∃ q, p = out ++ q := by
      refine ⟨p.drop out.length, ?_⟩
      have htake := congrArg (List.take out.length) h
      rw [List.take_left, List.take_append_of_le_length hle] at htake
      have hsplit := List.take_append_drop out.length p
      rw [← htake] at hsplit
      exact hsplit.symm
    refine ⟨q, ?_, rfl⟩
    rw [List.length_append, hout, padding_add, List.append_assoc] at h
    exact List.append_cancel_left h

end Padding

/-- A message of any length, padded and encrypted. -/
def cbcPadded (cipher : BlockCipher) (iv p : Octets) : Octets :=
  (runBlocks (cbcEncrypt cipher) (p.length / blockSize + 1) iv (p ++ padding p.length)).1

section CbcPadded

variable {cipher : BlockCipher} {iv p c : Octets}

theorem length_cbcPadded (hiv : iv.length = blockSize) :
    (cbcPadded cipher iv p).length = (p.length / blockSize + 1) * blockSize :=
  (length_runBlocks keepsLength_cbcEncrypt hiv (Nat.le_of_eq length_padded.symm)).1

/-- What decrypts to a padded message is that message encrypted. -/
theorem eq_cbcPadded_iff (hiv : iv.length = blockSize) :
    c = cbcPadded cipher iv p ↔
      ∃ n, c.length = n * blockSize ∧
        (runBlocks (cbcDecrypt cipher) n iv c).1 = p ++ padding p.length := by
  constructor
  · rintro rfl
    exact ⟨_, length_cbcPadded hiv, cbcDecrypt_cbcEncrypt hiv length_padded⟩
  · rintro ⟨n, hn, hp⟩
    have hkeeps : BlockMode.KeepsLength (cbcDecrypt cipher) := keepsLength_cbcDecrypt
    have hlen := (length_runBlocks hkeeps hiv (Nat.le_of_eq hn.symm)).1
    rw [hp, length_padded] at hlen
    have hblocks : p.length / blockSize + 1 = n := Nat.eq_of_mul_eq_mul_right (by decide) hlen
    rw [cbcPadded, hblocks, ← hp, cbcEncrypt_cbcDecrypt hiv hn]

end CbcPadded

section Feeding

variable {σ : Type*}

/-- A machine that is given its input in pieces; `none` is a piece that it cannot take. -/
def feed (update : σ → Octets → Option (Octets × σ)) : σ → List Octets → Option (Octets × σ)
  | s, [] => some ([], s)
  | s, input :: inputs => do
    let now ← update s input
    let later ← feed update now.2 inputs
    some (now.1 ++ later.1, later.2)

/-- What a machine keeps between pieces that it can take depends on the input so far. -/
theorem feed_invariant {update : σ → Octets → Option (Octets × σ)} {ok : Octets → Prop}
    {R : Octets → σ → Octets → Prop}
    (hupdate : ∀ {data s out} input, ok input → R data s out →
      ∃ now, update s input = some now ∧ R (data ++ input) now.2 (out ++ now.1))
    {data out : Octets} {s : σ} {inputs : List Octets} (hok : ∀ input ∈ inputs, ok input)
    (h : R data s out) :
    ∃ r, feed update s inputs = some r ∧ R (data ++ inputs.flatten) r.2 (out ++ r.1) := by
  induction inputs generalizing data s out with
  | nil =>
    refine ⟨_, rfl, ?_⟩
    rw [List.flatten_nil, List.append_nil, List.append_nil]
    exact h
  | cons input inputs ih =>
    obtain ⟨now, hnow, h⟩ := hupdate input (hok input List.mem_cons_self) h
    obtain ⟨later, hlater, hrest⟩ := ih (fun input hin => hok input (List.mem_cons_of_mem _ hin)) h
    refine ⟨(now.1 ++ later.1, later.2), ?_, ?_⟩
    · simp only [feed, hnow, hlater, Option.bind_eq_bind, Option.bind_some]
    · rw [List.flatten_cons, ← List.append_assoc, ← List.append_assoc]
      exact hrest

end Feeding

end BaseCode.Foundation
