import Mbb.UserGroups

/-!
# Authentication by secret

The method `plain` of `mbbd/mbbauth.c` and the method `salt` of
`mbbd/modules/auth_salt/main.c`. The first refuses users without secret. The second never
looks at the secret by itself: a user without secret is taken for one whose secret is empty.
-/

namespace Mbb

/-- An algorithm of `GChecksum`: checksums as text, all of one length. -/
structure Checksum : Type where
  /-- `checksum_length` -/
  length : ℕ
  /-- the checksum of a text -/
  digest : String → String
  /-- the length -/
  length_digest : ∀ text, (digest text).utf8ByteSize = length

/-- `g_checksum_update`, on the text that has been added so far; `NULL` adds nothing. -/
def gChecksumUpdate (text : String) (data : Option String) : String := text ++ data.getD ""

/-- `struct mbb_session`, and the private variable `salt_key` of the session. -/
structure Session : Type where
  /-- user -/
  user : Option Int
  /-- peer -/
  peer : String
  /-- the thread has a queue of messages -/
  msgQueue : Bool
  /-- the salt that was sent -/
  salt : Option String
deriving DecidableEq

namespace UserBase

variable (b : UserBase)

/-! ## The methods -/

/-- `mbb_auth_plain` -/
def mbbAuthPlain (login : String) (secret : Option String) : Option Int :=
  match secret with
  | none => none
  | some secret =>
    match b.userByName login with
    | none => none
    | some (id, u) =>
      match u.secret with
      | none => none
      | some pass => if pass = secret then some id else none

/-- `auth_salt`: the user, the session and the messages that are sent. The result of
`salt_new` is `newSalt`. -/
def authSalt (ck : Checksum) (ss : Session) (newSalt login : String) (secret : Option String) :
    Option Int × Session × List String :=
  match secret, ss.salt with
  | some secret, some salt =>
    -- the length is tested before the user is looked for
    if secret.utf8ByteSize ≠ ck.length then (none, ss, [])
    else
      match b.userByName login with
      | none => (none, ss, [])
      | some (id, u) =>
        -- `user->secret` may be `NULL` here: the method does not ask
        let checksum := gChecksumUpdate (gChecksumUpdate "" u.secret) (some salt)
        if secret = ck.digest checksum then (some id, ss, []) else (none, ss, [])
  | _, _ =>
    -- without a response, or before a salt was sent, the answer is a new salt
    if ss.msgQueue then
      (none, { ss with salt := some newSalt }, ["<salt>" ++ newSalt ++ "</salt>"])
    else (none, ss, [])

/-! ## Whom they accept -/

variable {b} {ck : Checksum} {ss : Session} {newSalt login : String} {secret : Option String}
  {id : Int}

theorem mbbAuthPlain_eq_some : b.mbbAuthPlain login secret = some id ↔
    ∃ u pass, b.userByName login = some (id, u) ∧ u.secret = some pass ∧ secret = some pass := by
  unfold mbbAuthPlain
  constructor
  · intro h
    split at h
    · cases h
    · split at h
      · cases h
      · rename_i id' u hu
        split at h
        · cases h
        · rename_i pass hpass
          split at h
          · rename_i hsame
            obtain rfl := Option.some.inj h
            exact ⟨u, pass, hu, hpass, congrArg some hsame.symm⟩
          · cases h
  · rintro ⟨u, pass, hu, hpass, rfl⟩
    simp only [hu, hpass, if_pos]

/-- The method `salt` does not tell a user without secret from one with an empty secret. -/
theorem authSalt_eq_some : (b.authSalt ck ss newSalt login secret).1 = some id ↔
    ∃ u salt, b.userByName login = some (id, u) ∧ ss.salt = some salt ∧
      secret = some (ck.digest (u.secret.getD "" ++ salt)) := by
  have hsum : ∀ (u : MbbUser) (salt : String),
      gChecksumUpdate (gChecksumUpdate "" u.secret) (some salt) = u.secret.getD "" ++ salt := by
    intro u salt
    rw [gChecksumUpdate, gChecksumUpdate, String.empty_append, Option.getD_some]
  unfold authSalt
  constructor
  · intro h
    split at h
    · rename_i secret salt hsalt
      split at h
      · cases h
      · split at h
        · cases h
        · rename_i id' u hu
          dsimp only at h
          split at h
          · rename_i hsame
            obtain rfl := Option.some.inj h
            exact ⟨u, salt, hu, hsalt, congrArg some (hsum u salt ▸ hsame)⟩
          · cases h
    · split at h <;> cases h
  · rintro ⟨u, salt, hu, hsalt, rfl⟩
    rw [hsalt]
    dsimp only
    rw [if_neg (not_ne_iff.mpr (ck.length_digest _)), hu]
    dsimp only
    rw [hsum, if_pos rfl]

/-! ## The policy

Both methods should accept a user with a secret if and only if the response proves that the caller
knows it, and nobody without a secret.
-/

variable (b ck ss newSalt login secret) in
/-- What both methods owe: they accept users by their secret, and nobody without one. -/
structure BySecret : Prop where
  /-- the salted method -/
  salted : ∀ id, (b.authSalt ck ss newSalt login secret).1 = some id →
    ∃ u pass salt, b.userById id = some u ∧ u.name = login ∧ u.secret = some pass ∧
      ss.salt = some salt ∧ secret = some (ck.digest (pass ++ salt))
  /-- the plain method -/
  plain : ∀ id, b.mbbAuthPlain login secret = some id →
    ∃ u pass, b.userById id = some u ∧ u.name = login ∧ u.secret = some pass ∧
      secret = some pass
  /-- users without secret -/
  rejected : ∀ id u, b.userById id = some u → u.secret = none →
    (b.authSalt ck ss newSalt login secret).1 ≠ some id ∧ b.mbbAuthPlain login secret ≠ some id

/-- **Users without secret.** Both methods keep the policy exactly when the response is not
the checksum of the salt alone, sent for a user without secret. -/
theorem bySecret_iff : b.BySecret ck ss newSalt login secret ↔
    ¬ ∃ id u salt, b.userByName login = some (id, u) ∧ u.secret = none ∧ ss.salt = some salt ∧
      secret = some (ck.digest salt) := by
  constructor
  · rintro h ⟨id, u, salt, hu, hnone, hsalt, hsecret⟩
    -- the checksum of the salt alone is the response of a user without secret
    refine (h.rejected id u (userByName_some hu).1 hnone).1 (authSalt_eq_some.mpr ?_)
    refine ⟨u, salt, hu, hsalt, ?_⟩
    rw [hnone, Option.getD_none, String.empty_append]
    exact hsecret
  · intro h
    have hsalted : ∀ id, (b.authSalt ck ss newSalt login secret).1 = some id →
        ∃ u pass salt, b.userById id = some u ∧ u.name = login ∧ u.secret = some pass ∧
          ss.salt = some salt ∧ secret = some (ck.digest (pass ++ salt)) := by
      intro id hid
      obtain ⟨u, salt, hu, hsalt, hsecret⟩ := authSalt_eq_some.mp hid
      obtain ⟨hreg, hname⟩ := userByName_some hu
      -- a user without secret would have sent the checksum of the salt alone
      cases hpass : u.secret with
      | none =>
        rw [hpass, Option.getD_none, String.empty_append] at hsecret
        exact absurd ⟨id, u, salt, hu, hpass, hsalt, hsecret⟩ h
      | some pass =>
        rw [hpass, Option.getD_some] at hsecret
        exact ⟨u, pass, salt, hreg, hname, hpass, hsalt, hsecret⟩
    have hplain : ∀ id, b.mbbAuthPlain login secret = some id →
        ∃ u pass, b.userById id = some u ∧ u.name = login ∧ u.secret = some pass ∧
          secret = some pass := by
      intro id hid
      obtain ⟨u, pass, hu, hpass, hsecret⟩ := mbbAuthPlain_eq_some.mp hid
      obtain ⟨hreg, hname⟩ := userByName_some hu
      exact ⟨u, pass, hreg, hname, hpass, hsecret⟩
    refine ⟨hsalted, hplain, fun id u hu hnone => ⟨fun hid => ?_, fun hid => ?_⟩⟩
    · obtain ⟨u', pass, salt, hu', -, hpass, -⟩ := hsalted id hid
      obtain rfl := Option.some.inj (hu.symm.trans hu')
      exact nomatch hnone.symm.trans hpass
    · obtain ⟨u', pass, hu', -, hpass, -⟩ := hplain id hid
      obtain rfl := Option.some.inj (hu.symm.trans hu')
      exact nomatch hnone.symm.trans hpass

/-- A checksum of one digit. -/
def parity : Checksum where
  length := 1
  digest := fun text => if text.utf8ByteSize % 2 = 0 then "0" else "1"
  length_digest := by
    intro text
    split <;> decide

/-- A user is added without secret, and is accepted for the checksum of the salt. -/
theorem no_secret_accepted :
    let b := ((load .initial).exec ⟨0, 2, fun _ => true⟩ ⟨1#32, 1⟩ (.addUser "bob" none)).2
    let ss₁ := (b.authSalt parity ⟨none, "peer", true, none⟩ "16charactersalt." "bob" none).2.1
    b.users.col MbbUser.secret 2 = some none ∧ ss₁.salt = some "16charactersalt." ∧
      (b.authSalt parity ss₁ "" "bob" (some (parity.digest "16charactersalt."))).1 = some 2 ∧
      ¬ b.BySecret parity ss₁ "" "bob" (some (parity.digest "16charactersalt.")) := by
  intro b ss₁
  have hnone : b.users.col MbbUser.secret 2 = some none := by decide +kernel
  have haccept : (b.authSalt parity ss₁ "" "bob"
      (some (parity.digest "16charactersalt."))).1 = some 2 := by
    decide +kernel
  refine ⟨hnone, by decide +kernel, haccept, fun h => ?_⟩
  obtain ⟨u, pass, -, hu, -, hpass, -⟩ := h.salted 2 haccept
  have hcol := Ledger.col_of_get? (userById_eq_some.mp hu).2 MbbUser.secret
  rw [hnone, hpass] at hcol
  cases hcol

end UserBase

end Mbb
