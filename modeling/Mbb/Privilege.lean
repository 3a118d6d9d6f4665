import Mbb.UserGroups

/-!
# Privileges

The groups root and wheel. `group_do_user` keeps callers who are in neither out of them, and
`drop_user` is out of their reach. `user_mod_name` and `user_mod_pass` ask for the capability
of an administrator only, whoever the user is. Apart from these two, calls by sessions whose
users are in neither group leave the members of both, and their names and secrets, as they
are.
-/

namespace Mbb

namespace UserBase

variable {b b' : UserBase} {e : Env} {c : Caller} {id : Int} {g : ℕ} {user : Option Int}

/-! ## Members of root and wheel

What is to stay the same: who is in these groups, and the names and secrets of those who are.
-/

/-- In the group root, or in the group wheel. -/
def Privileged (b : UserBase) (id : Int) : Prop := ∃ g, g ≤ mbbCapWheelId ∧ ∃ l ∈ b.lists g, id ∈ l

instance (b : UserBase) (id : Int) : Decidable (b.Privileged id) :=
  inferInstanceAs (Decidable (∃ g, g ≤ mbbCapWheelId ∧ ∃ l ∈ b.lists g, id ∈ l))

/-- The user of a session, if there is one, is in neither group. -/
def Unprivileged (b : UserBase) (user : Option Int) : Prop := ∀ id ∈ user, ¬ b.Privileged id

instance (b : UserBase) (user : Option Int) : Decidable (b.Unprivileged user) :=
  inferInstanceAs (Decidable (∀ id ∈ user, ¬ b.Privileged id))

/-- The members of both groups, and their names and secrets, are the same. -/
structure SamePrivileged (b b' : UserBase) : Prop where
  /-- the members of the groups -/
  members : ∀ g, g ≤ mbbCapWheelId → b'.lists g = b.lists g
  /-- what the members are called, and their secrets -/
  users : ∀ id, b.Privileged id → b'.users.col (fun u => (u.name, u.secret)) id =
    b.users.col (fun u => (u.name, u.secret)) id

namespace SamePrivileged

theorem refl (b : UserBase) : b.SamePrivileged b := ⟨fun _ _ => rfl, fun _ _ => rfl⟩

theorem privileged (h : b.SamePrivileged b') (id : Int) : b'.Privileged id ↔ b.Privileged id := by
  refine exists_congr fun g => and_congr_right fun hg => ?_
  rw [h.members g hg]

theorem trans {b'' : UserBase} (h : b.SamePrivileged b') (h' : b'.SamePrivileged b'') :
    b.SamePrivileged b'' :=
  ⟨fun g hg => (h'.members g hg).trans (h.members g hg),
    fun id hid => (h'.users id ((h.privileged id).mpr hid)).trans (h.users id hid)⟩

end SamePrivileged

/-! ## What a caller may do

A method runs if the caller has a capability of its mask. A caller in neither group has none that
the guarded methods ask for.
-/

/-- A call for a method of the group wheel. -/
theorem mbbCapCheck_wheel (m : BitVec 32) :
    mbbCapCheck m (capOf mbbCapWheelId) = mbbCapIsWheel m := by
  rw [mbbCapCheck]
  by_cases hm : m = 0#32
  · subst hm
    rfl
  · rw [if_neg hm, mbbCapIsWheel, Bool.or_comm]

/-- The capabilities of a caller are those of a user. -/
theorem exists_of_caller_cap (h : (b.caller user).cap.getLsbD g = true) :
    ∃ id ∈ user, ∃ u, b.users.get? id = some u ∧ u.capMask.getLsbD g = true := by
  rw [caller] at h
  cases hu : user.bind b.users.get? with
  | none =>
    rw [hu] at h
    exact absurd h (by simp)
  | some u =>
    rw [hu] at h
    obtain ⟨id, hid, hget⟩ := Option.bind_eq_some_iff.mp hu
    exact ⟨id, hid, u, hget, h⟩

/-- A caller whose user is in neither group has the capabilities of neither. -/
theorem Unprivileged.cap (hu : b.Unprivileged user) (h : b.Sound) (hg : g ≤ mbbCapWheelId) :
    (b.caller user).cap.getLsbD g = false := by
  by_contra hbit
  obtain ⟨id, hid, u, hget, hbit⟩ := exists_of_caller_cap (Bool.eq_true_of_not_eq_false hbit)
  obtain ⟨-, l, hl, hmem⟩ := h.roster.flagged (flags_of_get? hget) hbit
  exact hu id hid ⟨g, hg, l, hl, hmem⟩

theorem Unprivileged.not_wheel (hu : b.Unprivileged user) (h : b.Sound) :
    mbbCapIsWheel (b.caller user).cap = false := by
  have hroot : (b.caller user).cap.getLsbD mbbCapRootId = false := hu.cap h (Nat.zero_le _)
  rw [mbbCapIsWheel, mbbCapIsRoot, and_capOf_ne_zero (by decide), and_capOf_ne_zero (by decide),
    hu.cap h (le_refl mbbCapWheelId), hroot, Bool.or_false]

/-- A thread without user finds none of the methods that everybody may call. -/
theorem exists_user_of_funcSearch (h : b.funcSearch user mbbCapAll = true) :
    ∃ id, user = some id := by
  cases user with
  | none =>
    have hcheck : mbbCapCheck 0#32 mbbCapAll = true := h
    exact absurd hcheck (by decide)
  | some id => exact ⟨id, rfl⟩

/-! ## One call

A call leaves the members of both groups alone, or is one of the two that ask for too little.
-/

/-- The call gives another name or another secret to a member of root or wheel. -/
def RewritesPrivileged (b : UserBase) (e : Env) (user : Option Int) : UserCmd → Prop
  | .userModName name newname =>
    b.funcSearch user (UserCmd.userModName name newname).capMask = true ∧ e.db 0 = true ∧
      b.userByName newname = none ∧
      ∃ id u, b.userByName name = some (id, u) ∧ b.Privileged id
  | .userModPass name newsecret =>
    b.funcSearch user (UserCmd.userModPass name newsecret).capMask = true ∧ e.db 0 = true ∧
      ∃ id u, b.userByName name = some (id, u) ∧ b.Privileged id ∧ u.secret ≠ passSecret newsecret
  | _ => False

/-- A change to users who are in neither group. -/
theorem samePrivileged_of_frame (hlists : ∀ g, g ≤ mbbCapWheelId → b'.lists g = b.lists g)
    (husers : ∀ id, b.Privileged id → b'.users.get? id = b.users.get? id) :
    b.SamePrivileged b' :=
  ⟨hlists, fun id hid => by rw [Ledger.col, Ledger.col, husers id hid]⟩

/-- A change of what neither names nor secrets show. -/
theorem samePrivileged_of_col (hlists : ∀ g, g ≤ mbbCapWheelId → b'.lists g = b.lists g)
    (hcol : b'.users.col (fun u => (u.name, u.secret)) =
      b.users.col fun u => (u.name, u.secret)) : b.SamePrivileged b' :=
  ⟨hlists, fun id _ => by rw [hcol]⟩

/-- A member has a record. -/
theorem Privileged.exists_user (h : b.Privileged id) (hb : b.Sound) : b.users.get? id ≠ none := by
  obtain ⟨g, -, l, hl, hmem⟩ := h
  intro hnone
  exact hb.roster.not_mem (Ledger.col_eq_none.mpr hnone) hl hmem

/-- Changing the record of one user leaves those of others. -/
theorem get?_modify_ne {f : MbbUser → MbbUser} {k : Int} (hne : k ≠ id) :
    (b.users.modify id f).get? k = b.users.get? k := by
  rw [Ledger.get?_modify, if_neg hne]

/-- The lists of the other groups stay. -/
theorem lists_modify_ne {f : MbbGroup → MbbGroup} {k : ℕ} (hne : k ≠ g) :
    (b.groups.modify g f).col MbbGroup.users k = b.lists k := by
  rw [Ledger.col, Ledger.get?_modify, if_neg hne, lists, Ledger.col]

/-- **One call.** -/
theorem Sound.samePrivileged (h : b.Sound) (hu : b.Unprivileged user) {cmd : UserCmd}
    (hcmd : ¬ b.RewritesPrivileged e user cmd) :
    b.SamePrivileged (b.funcCall e user cmd).2 := by
  rcases funcCall_effect (b := b) (e := e) user cmd with heq | ⟨hfound, heffect⟩
  · rw [heq]
    exact .refl b
  have hwheel := hu.not_wheel h
  -- one case for each thing the call can have done
  generalize (b.funcCall e user cmd).2 = b' at heffect ⊢
  cases heffect with
  | addUser hid hname =>
    refine samePrivileged_of_frame (fun _ _ => rfl) fun id hpriv => ?_
    -- members have records, and the new user has an id without one
    have hne : id ≠ e.id := fun heq => hpriv.exists_user h (heq ▸ hid)
    rw [UserBase.userJoin, Ledger.get?_put, if_neg hne]
  | dropUser hname hchilds hdb =>
    -- the method is one of the group wheel, so the caller does not find it
    rw [funcSearch, UserCmd.capMask, mbbCapCheck_wheel, hwheel] at hfound
    cases hfound
  | userModName hname hnew hdb =>
    rw [userModName_of_none hnew]
    refine samePrivileged_of_frame (fun _ _ => rfl) fun id hpriv => get?_modify_ne ?_
    rintro rfl
    exact hcmd ⟨hfound, hdb, hnew, _, _, hname, hpriv⟩
  | @userModPass name newsecret id u hname hdb =>
    by_cases hsame : u.secret = passSecret newsecret
    -- the secret is the one the user had, so that nothing changes
    · refine samePrivileged_of_col (fun _ _ => rfl) ?_
      have hget := (userById_eq_some.mp (userByName_some hname).1).2
      refine (Ledger.col_modify hget _ _).trans ?_
      rw [← hsame]
      exact Function.update_eq_self_iff.mpr
        (Ledger.col_of_get? hget fun u => (u.name, u.secret)).symm
    · refine samePrivileged_of_frame (fun _ _ => rfl) fun k hpriv => get?_modify_ne ?_
      rintro rfl
      exact hcmd ⟨hfound, hdb, _, _, hname, hpriv, hsame⟩
  | selfModPass hself =>
    -- the command changes the caller's own record, and the caller is no member
    obtain ⟨id, rfl⟩ := exists_user_of_funcSearch hfound
    refine samePrivileged_of_frame (fun _ _ => rfl) fun k hpriv => get?_modify_ne ?_
    rintro rfl
    exact hu _ rfl hpriv
  | groupAddUser hg hname hcap hnot =>
    have hne : ¬ _ ≤ mbbCapWheelId := fun hle => Bool.false_ne_true (hwheel.symm.trans (hcap hle))
    -- `group_do_user` lets this caller change neither group
    rw [groupAddUser_of_not_mem (groupByName_some hg) hnot]
    refine samePrivileged_of_col (fun k hk => lists_modify_ne fun heq => hne (heq ▸ hk)) ?_
    exact Ledger.col_modify_same (by intro u; rfl) _ _
  | groupDelUser hg hname hcap hmem =>
    have hne : ¬ _ ≤ mbbCapWheelId := fun hle => Bool.false_ne_true (hwheel.symm.trans (hcap hle))
    rw [groupDelUser_of_mem (groupByName_some hg) hmem]
    refine samePrivileged_of_col (fun k hk => lists_modify_ne fun heq => hne (heq ▸ hk)) ?_
    exact Ledger.col_modify_same (by intro u; rfl) _ _

/-- A call that gives a member another name or another secret does so. -/
theorem RewritesPrivileged.not_same {cmd : UserCmd} (h : b.RewritesPrivileged e user cmd) :
    ¬ b.SamePrivileged (b.funcCall e user cmd).2 := by
  intro hsame
  cases cmd with
  | userModName name newname =>
    obtain ⟨hfound, hdb, hnew, id, u, hname, hpriv⟩ := h
    have hget := (userById_eq_some.mp (userByName_some hname).1).2
    have hdone : (b.funcCall e user (.userModName name newname)).2 =
        (b.userModName id newname).2 := by
      rw [funcCall, if_pos hfound, exec, userModNameDo, hname]
      dsimp only
      rw [hnew]
      dsimp only
      rw [if_pos hdb, userModName, hnew]
    have huser := hsame.users id hpriv
    rw [hdone, userModName_of_none hnew, Ledger.col_modify hget, Function.update_self,
      Ledger.col_of_get? hget] at huser
    -- the user would have had the new name before
    exact userByName_eq_none.mp hnew id u (userByName_some hname).1
      (Prod.mk.inj (Option.some.inj huser)).1.symm
  | userModPass name newsecret =>
    obtain ⟨hfound, hdb, id, u, hname, hpriv, hne⟩ := h
    have hget := (userById_eq_some.mp (userByName_some hname).1).2
    have hdone : (b.funcCall e user (.userModPass name newsecret)).2 =
        b.userModPass id (passSecret newsecret) := by
      rw [funcCall, if_pos hfound, exec, userModPassDo, hname]
      dsimp only
      rw [changePass, if_pos hdb]
    have huser := hsame.users id hpriv
    rw [hdone, UserBase.userModPass, Ledger.col_modify hget, Function.update_self,
      Ledger.col_of_get? hget] at huser
    exact hne (Prod.mk.inj (Option.some.inj huser)).2.symm
  | addUser _ _ => exact h
  | dropUser _ => exact h
  | selfModPass _ _ => exact h
  | groupAddUser _ _ => exact h
  | groupDelUser _ _ => exact h

/-! ## Every sequence of calls

The steps of sessions whose users are in neither group; the condition on a step is that it does not
rewrite a member.
-/

/-- A call that is in `P`. -/
def CallStep (P : UserBase → Env → Option Int → UserCmd → Prop) (b b' : UserBase) : Prop :=
  ∃ e user cmd, P b e user cmd ∧ (b.funcCall e user cmd).2 = b'

/-- The states after sequences of calls that are in `P`. -/
def Calls (P : UserBase → Env → Option Int → UserCmd → Prop) (b b' : UserBase) : Prop :=
  Relation.ReflTransGen (CallStep P) b b'

theorem Sound.funcCall (h : b.Sound) (user : Option Int) (cmd : UserCmd) :
    (b.funcCall e user cmd).2.Sound := by
  rcases funcCall_effect (b := b) (e := e) user cmd with heq | ⟨-, heffect⟩
  · rw [heq]
    exact h
  · exact h.effect heffect

/-- **No privilege escalation.** From any state that runs from what the database holds reach,
calls by sessions whose users are in neither of the groups root and wheel, none of which
gives a member of them another name or another secret, leave the members of both groups, and
their names and secrets, as they are. -/
theorem no_privilege_escalation (t : UserTables) {b₀ : UserBase}
    (h₀ : Reaches (fun _ _ _ => True) (load t) b₀)
    (h : Calls (fun b e user cmd => b.Unprivileged user ∧ ¬ b.RewritesPrivileged e user cmd) b₀ b) :
    b₀.SamePrivileged b := by
  -- by induction on the calls; that the sides of a membership agree is kept by every call
  suffices hboth : b.Sound ∧ b₀.SamePrivileged b from hboth.2
  induction h with
  | refl => exact ⟨(load_sound t).1.reach h₀, .refl b₀⟩
  | tail _ hstep ih =>
    obtain ⟨e, user, cmd, ⟨hu, hcmd⟩, rfl⟩ := hstep
    obtain ⟨hsound, hsame⟩ := ih
    exact ⟨hsound.funcCall user cmd, hsame.trans (hsound.samePrivileged hu hcmd)⟩

/-! ## Two sequences -/

/-- An administrator adds a user, gives it another secret and tries to enter the group
wheel. -/
theorem no_privilege_escalation_admin :
    let env := fun id => (⟨0, id, fun _ => true⟩ : Env)
    let root : Caller := ⟨1#32, 1⟩
    let b₁ := ((load .initial).exec (env 2) root (.addUser "bob" (some "x"))).2
    let b₂ := (b₁.exec (env 0) root (.groupAddUser "admin" "bob")).2
    let b₃ := (b₂.funcCall (env 3) (some 2) (.addUser "carol" none)).2
    let b₄ := (b₃.funcCall (env 0) (some 2) (.userModPass "carol" "y")).2
    let r := b₄.funcCall (env 0) (some 2) (.groupAddUser "wheel" "bob")
    r.1 = some (some .rootOnly) ∧
      r.2.users.col MbbUser.secret 3 = some (some "y") ∧ b₂.SamePrivileged r.2 := by
  intro env root b₁ b₂ b₃ b₄ r
  have h₂ : Reaches (fun _ _ _ => True) (load .initial) b₂ :=
    (Relation.ReflTransGen.single
      ⟨env 2, root, .addUser "bob" (some "x"), trivial, rfl⟩).tail
      ⟨env 0, root, .groupAddUser "admin" "bob", trivial, rfl⟩
  have hcarol : ¬ b₃.RewritesPrivileged (env 0) (some 2) (.userModPass "carol" "y") := by
    rintro ⟨-, -, id, u, hu, hpriv, -⟩
    have hnot : (b₃.userByName "carol").all (fun r => decide ¬ b₃.Privileged r.1) = true := by
      decide +kernel
    rw [hu, Option.all_some, decide_eq_true_iff] at hnot
    exact hnot hpriv
  have hcalls : Calls (fun b e user cmd => b.Unprivileged user ∧
      ¬ b.RewritesPrivileged e user cmd) b₂ r.2 :=
    ((Relation.ReflTransGen.single ⟨env 3, some 2, .addUser "carol" none,
      ⟨by decide +kernel, id⟩, rfl⟩).tail ⟨env 0, some 2, .userModPass "carol" "y",
      ⟨by decide +kernel, hcarol⟩, rfl⟩).tail ⟨env 0, some 2, .groupAddUser "wheel" "bob",
      ⟨by decide +kernel, id⟩, rfl⟩
  exact ⟨by decide +kernel, by decide +kernel, no_privilege_escalation .initial h₂ hcalls⟩

/-- An administrator who is in neither group gives root another secret. -/
theorem admin_mods_root_pass :
    let env := fun id => (⟨0, id, fun _ => true⟩ : Env)
    let root : Caller := ⟨1#32, 1⟩
    let b₁ := ((load .initial).exec (env 2) root (.addUser "bob" (some "x"))).2
    let b₂ := (b₁.exec (env 0) root (.groupAddUser "admin" "bob")).2
    let r := b₂.funcCall (env 0) (some 2) (.userModPass "root" "y")
    Reaches (fun _ _ _ => True) (load .initial) b₂ ∧ b₂.Unprivileged (some 2) ∧
      b₂.Privileged 1 ∧ r.1 = some none ∧
      b₂.users.col MbbUser.secret 1 = some (some "toor") ∧
      r.2.users.col MbbUser.secret 1 = some (some "y") ∧ ¬ b₂.SamePrivileged r.2 := by
  intro env root b₁ b₂ r
  have h₂ : Reaches (fun _ _ _ => True) (load .initial) b₂ :=
    (Relation.ReflTransGen.single
      ⟨env 2, root, .addUser "bob" (some "x"), trivial, rfl⟩).tail
      ⟨env 0, root, .groupAddUser "admin" "bob", trivial, rfl⟩
  have hpriv : b₂.Privileged 1 := by decide +kernel
  refine ⟨h₂, by decide +kernel, hpriv, by decide +kernel, by decide +kernel, by decide +kernel,
    fun hsame => ?_⟩
  have hne : r.2.users.col (fun u => (u.name, u.secret)) 1 ≠
      b₂.users.col (fun u => (u.name, u.secret)) 1 := by
    decide +kernel
  exact hne (hsame.users 1 hpriv)

end UserBase

end Mbb
