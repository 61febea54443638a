import SpineFormal.Base.UrlSafe

/-!
# Field-level encryption

`FieldEncryptor` of `infra/encryption.py`. The cipher is the Fernet of the
`cryptography` package, a parameter here: what is relied on is that decryption
undoes encryption under one key and that an empty token is malformed.
-/

namespace SpineFormal

set_option autoImplicit false

/-- The clock and the random bytes one encryption reads. -/
structure Fernet.Seed where
  time : Nat
  iv : Bytes
deriving DecidableEq

/-- `Fernet(key)` raises unless `validKey key`; `decrypt` is `none` where it raises
`InvalidToken`. -/
structure Fernet where
  validKey : Bytes → Bool
  encrypt : Bytes → Fernet.Seed → Bytes → Bytes
  decrypt : Bytes → Bytes → Option Bytes

structure Fernet.Correct (F : Fernet) : Prop where
  decrypt_encrypt : ∀ key seed m, F.validKey key = true →
    F.decrypt key (F.encrypt key seed m) = some m
  malformed : ∀ key, F.decrypt key [] = none

theorem Fernet.Correct.encrypt_ne_nil {F : Fernet} (hF : F.Correct) {key : Bytes}
    (hkey : F.validKey key = true) (seed : Fernet.Seed) (m : Bytes) : F.encrypt key seed m ≠ [] := by
  intro h
  have hdec := hF.decrypt_encrypt key seed m hkey
  rw [h, hF.malformed] at hdec
  exact absurd hdec (by simp)

/-- An encryptor exists for a valid key only. -/
structure FieldEncryptor (F : Fernet) where
  key : Bytes
  valid : F.validKey key = true

namespace FieldEncryptor
variable {F : Fernet}

def init (key : Bytes) : Except String (FieldEncryptor F) :=
  if h : F.validKey key = true then .ok ⟨key, h⟩ else .error "Invalid encryption key"

def encrypt (e : FieldEncryptor F) (seed : Fernet.Seed) (plaintext : List Char) : List Char :=
  if plaintext = [] then [] else Base64.encode (F.encrypt e.key seed (encodeUtf8 plaintext))

/-- `base64.b64decode` and the cipher of one key, read from a text. -/
def openToken (F : Fernet) (key : Bytes) (ciphertext : List Char) : Option Bytes :=
  (b64decode (encodeUtf8 ciphertext)).bind (F.decrypt key)

def decrypt (e : FieldEncryptor F) (ciphertext : List Char) : Except String (List Char) :=
  if ciphertext = [] then .ok []
  else
    match (openToken F e.key ciphertext).bind decodeUtf8 with
    | some plaintext => .ok plaintext
    | none => .error "Decryption failed"

-- There is no case for the empty ciphertext here.
def rotateKey (F : Fernet) (oldKey newKey : Bytes) (seed : Fernet.Seed)
    (ciphertext : List Char) : Except String (List Char) :=
  if F.validKey oldKey then
    match openToken F oldKey ciphertext with
    | some plaintext =>
      if F.validKey newKey then .ok (Base64.encode (F.encrypt newKey seed plaintext))
      else .error "Key rotation failed"
    | none => .error "Key rotation failed"
  else .error "Key rotation failed"

theorem encrypt_nil (e : FieldEncryptor F) (seed : Fernet.Seed) : e.encrypt seed [] = [] :=
  if_pos rfl

theorem encrypt_of_ne_nil (e : FieldEncryptor F) (seed : Fernet.Seed) {plaintext : List Char}
    (h : plaintext ≠ []) :
    e.encrypt seed plaintext = Base64.encode (F.encrypt e.key seed (encodeUtf8 plaintext)) :=
  if_neg h

theorem decrypt_eq_ok_iff (e : FieldEncryptor F) {ciphertext plaintext : List Char}
    (h : ciphertext ≠ []) : e.decrypt ciphertext = .ok plaintext ↔
      (openToken F e.key ciphertext).bind decodeUtf8 = some plaintext := by
  rw [decrypt, if_neg h]
  cases (openToken F e.key ciphertext).bind decodeUtf8 with
  | none => simp
  | some p => simp

section Correct
variable (hF : F.Correct)
include hF

theorem openToken_nil (key : Bytes) : openToken F key [] = none :=
  hF.malformed key

theorem openToken_encode {key : Bytes} (hkey : F.validKey key = true) (seed : Fernet.Seed)
    (m : Bytes) : openToken F key (Base64.encode (F.encrypt key seed m)) = some m := by
  rw [openToken, Base64.b64decode_encode, Option.bind_some, hF.decrypt_encrypt key seed m hkey]

theorem encode_ne_nil {key : Bytes} (hkey : F.validKey key = true) (seed : Fernet.Seed)
    (m : Bytes) : Base64.encode (F.encrypt key seed m) ≠ [] :=
  fun h => hF.encrypt_ne_nil hkey seed m (Base64.encode_eq_nil.mp h)

/-- What a token of a key is read as. -/
theorem decrypt_encode (e : FieldEncryptor F) (seed : Fernet.Seed) (plaintext : List Char) :
    e.decrypt (Base64.encode (F.encrypt e.key seed (encodeUtf8 plaintext))) = .ok plaintext := by
  rw [decrypt_eq_ok_iff e (encode_ne_nil hF e.valid seed _), openToken_encode hF e.valid,
    Option.bind_some, decodeUtf8_encodeUtf8]

/-- The shortcut of `encrypt` meets that of `decrypt`. -/
theorem decrypt_encrypt (e : FieldEncryptor F) (seed : Fernet.Seed) (plaintext : List Char) :
    e.decrypt (e.encrypt seed plaintext) = .ok plaintext := by
  by_cases h : plaintext = []
  · rw [h, encrypt_nil, decrypt, if_pos rfl]
  · rw [encrypt_of_ne_nil e seed h, decrypt_encode hF]

/-- No rotation accepts the empty text, under any keys. -/
theorem rotateKey_nil (oldKey newKey : Bytes) (seed : Fernet.Seed) :
    rotateKey F oldKey newKey seed [] = .error "Key rotation failed" := by
  rw [rotateKey, openToken_nil hF, ite_self]

/-- Rotation keeps the plaintext of whatever the old key reads, the empty text apart. -/
theorem decrypt_rotateKey (old new : FieldEncryptor F) (seed : Fernet.Seed)
    {ciphertext plaintext : List Char} (hne : ciphertext ≠ [])
    (h : old.decrypt ciphertext = .ok plaintext) :
    ∃ c, rotateKey F old.key new.key seed ciphertext = .ok c ∧ new.decrypt c = .ok plaintext := by
  rw [decrypt_eq_ok_iff old hne, Option.bind_eq_some_iff] at h
  obtain ⟨m, hopen, hutf⟩ := h
  refine ⟨Base64.encode (F.encrypt new.key seed m), ?_, ?_⟩
  · rw [rotateKey, if_pos old.valid, hopen]
    exact if_pos new.valid
  · rw [decrypt_eq_ok_iff new (encode_ne_nil hF new.valid seed m),
      openToken_encode hF new.valid, Option.bind_some, hutf]

theorem round_trip_iff (old new : FieldEncryptor F) (seed seed' : Fernet.Seed)
    (plaintext : List Char) :
    (old.decrypt (old.encrypt seed plaintext) = .ok plaintext ∧
      ∃ c, rotateKey F old.key new.key seed' (old.encrypt seed plaintext) = .ok c ∧
        new.decrypt c = .ok plaintext) ↔ plaintext ≠ [] := by
  constructor
  · rintro ⟨-, c, hrotate, -⟩ rfl
    rw [encrypt_nil, rotateKey_nil hF] at hrotate
    exact absurd hrotate (by simp)
  · intro h
    have hdec := decrypt_encrypt hF old seed plaintext
    refine ⟨hdec, decrypt_rotateKey hF old new seed' ?_ hdec⟩
    rw [encrypt_of_ne_nil old seed h]
    exact encode_ne_nil hF old.valid seed _

end Correct

/-! ## A key rotated -/

def oldKey : Bytes := encodeUtf8 "cw_0x689RpI-jtRR7oE8h_eQsKImvJapLeSbXpwF4e4=".toList
def newKey : Bytes := encodeUtf8 "AAECAwQFBgcICQoLDA0ODxAREhMUFRYXGBkaGxwdHh8=".toList

def seed : Fernet.Seed := ⟨499162800, (List.range 16).map UInt8.ofNat⟩

/-- What Fernet gives for "hello" at that seed, under the two keys. -/
def oldToken : Bytes :=
  encodeUtf8 ("gAAAAAAdwJ6wAAECAwQFBgcICQoLDA0ODy021cpGVWKZ_eEwCGM4BLLF_5CV9dOPmrhuVUPgJobwOz7Jcbmr" ++
    "R64jVmpU4IwqDA==").toList
def newToken : Bytes :=
  encodeUtf8 ("gAAAAAAdwJ6wAAECAwQFBgcICQoLDA0OD4_9EBVfNSDZ7XtRxaHNdkW99QsUAt9pmRctkSzQxwX8ezo1JYkB" ++
    "0XAhlhuGaD6Beg==").toList

/-- Fernet where it is used below: a token starts with `g`, which the other ones here do not. -/
def recorded : Fernet where
  validKey key := (b64decode (key.map Base64.fromUrl)).map List.length == some 32
  encrypt key s m :=
    if m = encodeUtf8 "hello".toList ∧ s = seed ∧ key = oldKey then oldToken
    else if m = encodeUtf8 "hello".toList ∧ s = seed ∧ key = newKey then newToken
    else 0 :: m
  decrypt key token :=
    if token = oldToken then if key = oldKey then some (encodeUtf8 "hello".toList) else none
    else if token = newToken then if key = newKey then some (encodeUtf8 "hello".toList) else none
    else if token.head? = some 0 then some token.tail else none

theorem cons_zero_ne {token : Bytes} (h : token.head? = some 103) (m : Bytes) : 0 :: m ≠ token := by
  rintro rfl
  exact absurd h (by simp)

theorem recorded_correct : recorded.Correct where
  decrypt_encrypt key s m _ := by
    have hne : newToken ≠ oldToken := by decide +kernel
    simp only [recorded]
    by_cases h₁ : m = encodeUtf8 "hello".toList ∧ s = seed ∧ key = oldKey
    · rw [if_pos h₁, if_pos rfl, if_pos h₁.2.2, h₁.1]
    · by_cases h₂ : m = encodeUtf8 "hello".toList ∧ s = seed ∧ key = newKey
      · rw [if_neg h₁, if_pos h₂, if_neg hne, if_pos rfl, if_pos h₂.2.2, h₂.1]
      · rw [if_neg h₁, if_neg h₂, if_neg (cons_zero_ne (by decide) m),
          if_neg (cons_zero_ne (by decide) m), if_pos (List.head?_cons), List.tail_cons]
  malformed key := by
    have hold : [] ≠ oldToken := by decide
    have hnew : [] ≠ newToken := by decide
    simp only [recorded]
    rw [if_neg hold, if_neg hnew, if_neg (by simp)]

def oldEncryptor : FieldEncryptor recorded := ⟨oldKey, by decide +kernel⟩
def newEncryptor : FieldEncryptor recorded := ⟨newKey, by decide +kernel⟩

theorem round_trip_hello :
    (oldEncryptor.decrypt (oldEncryptor.encrypt seed "hello".toList) = .ok "hello".toList ∧
      ∃ c, rotateKey recorded oldKey newKey seed (oldEncryptor.encrypt seed "hello".toList) = .ok c ∧
        newEncryptor.decrypt c = .ok "hello".toList) ↔ "hello".toList ≠ [] :=
  round_trip_iff recorded_correct oldEncryptor newEncryptor seed seed "hello".toList

/-- The encryption of the empty plaintext cannot be rotated. -/
theorem empty_not_rotated :
    recorded.Correct ∧
      ¬ ∃ c, rotateKey recorded oldKey newKey seed (oldEncryptor.encrypt seed []) = .ok c ∧
        newEncryptor.decrypt c = .ok [] := by
  refine ⟨recorded_correct, ?_⟩
  rintro ⟨c, hrotate, -⟩
  rw [encrypt_nil, rotateKey_nil recorded_correct] at hrotate
  exact absurd hrotate (by simp)

end FieldEncryptor
end SpineFormal
