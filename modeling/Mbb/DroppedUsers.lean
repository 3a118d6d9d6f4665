import Mbb.AuthKeys

/-!
# Users that have been dropped

Whoever authenticates is registered, as long as no user is dropped who has a key that is
still alive. A user that is dropped is never registered again, and its sessions find none of
the methods, so that they get no new keys.
-/

namespace Mbb

namespace UserBase

variable {b b' : UserBase} {e : Env} {c : Caller} {cmd : UserCmd} {k : Int}

/-- There was a user with this id, and it is registered no more. -/
def Gone (b : UserBase) (k : Int) : Prop := k ∉ b.dlink ∧ b.users.get? k ≠ none

/-- A change leaves everybody registered, except whom it drops. -/
theorem Effect.registered (h : b.Effect e c cmd b') (hk : k ∈ b.dlink) :
    k ∈ b'.dlink ∨ ∃ u, b.Drops e cmd k u := by
  cases h with
  | addUser hid hname => exact Or.inl (List.mem_cons_of_mem _ hk)
  | @dropUser name id u hu hchilds hdb =>
    by_cases hkid : k = id
    · exact Or.inr ⟨u, name, rfl, hkid ▸ hu, hchilds, hdb⟩
    · rw [userRemove_eq]
      exact Or.inl (List.mem_filter.mpr ⟨hk, decide_eq_true hkid⟩)
  | userModName hu hnew hdb =>
    exact Or.inl ((mem_userModName_dlink (userByName_some hu).1 hnew).mpr hk)
  | userModPass hu hdb => exact Or.inl hk
  | selfModPass hu => exact Or.inl hk
  | groupAddUser hg hu hcap hnot =>
    rw [groupAddUser_of_not_mem (groupByName_some hg) hnot]
    exact Or.inl hk
  | groupDelUser hg hu hcap hmem =>
    rw [groupDelUser_of_mem (groupByName_some hg) hmem]
    exact Or.inl hk

/-- Ids are not used again. -/
theorem Effect.gone (h : b.Effect e c cmd b') (hk : b.Gone k) : b'.Gone k := by
  obtain ⟨hmem, hget⟩ := hk
  have hmod : ∀ (id : Int) (f : MbbUser → MbbUser), (b.users.modify id f).get? k ≠ none :=
    fun id f hnone => hget (Ledger.get?_modify_eq_none.mp hnone)
  cases h with
  | addUser hid hname =>
    have hne : k ≠ e.id := fun heq => hget (heq ▸ hid)
    refine ⟨fun hmem' => ?_, ?_⟩
    · exact (List.mem_cons.mp hmem').elim hne hmem
    · rw [userJoin, Ledger.get?_put, if_neg hne]
      exact hget
  | dropUser hu hchilds hdb =>
    rw [userRemove_eq]
    exact ⟨fun hmem' => hmem (List.mem_filter.mp hmem').1, hmod _ _⟩
  | userModName hu hnew hdb =>
    refine ⟨fun hmem' => hmem ?_, ?_⟩
    · exact (mem_userModName_dlink (userByName_some hu).1 hnew).mp hmem'
    · rw [userModName_of_none hnew]
      exact hmod _ _
  | userModPass hu hdb => exact ⟨hmem, hmod _ _⟩
  | selfModPass hu => exact ⟨hmem, hmod _ _⟩
  | groupAddUser hg hu hcap hnot =>
    rw [groupAddUser_of_not_mem (groupByName_some hg) hnot]
    exact ⟨hmem, hmod _ _⟩
  | groupDelUser hg hu hcap hmem' =>
    rw [groupDelUser_of_mem (groupByName_some hg) hmem']
    exact ⟨hmem, hmod _ _⟩

/-- A user that is dropped is gone. -/
theorem Effect.gone_of_drop {name : String} {u : MbbUser}
    (h : b.Effect e c (.dropUser name) b') (hu : b.userByName name = some (k, u)) : b'.Gone k := by
  cases h with
  | dropUser hu' hchilds hdb =>
    obtain ⟨rfl, rfl⟩ := Prod.mk.inj (Option.some.inj (hu'.symm.trans hu))
    have hget := (userById_eq_some.mp (userByName_some hu).1).2
    rw [userRemove_eq]
    refine ⟨fun hmem => ?_, fun hnone => ?_⟩
    · exact absurd rfl (of_decide_eq_true (List.mem_filter.mp hmem).2)
    · rw [Ledger.get?_modify_eq_none.mp hnone] at hget
      cases hget

/-- A thread that finds the methods everybody may call has a user that is registered. -/
theorem registered_of_funcSearch (hb : b.Sound)
    (h : b.funcSearch (some k) mbbCapAll = true) : k ∈ b.dlink := by
  have hcap : (b.caller (some k)).cap ≠ 0#32 := by
    intro hzero
    rw [funcSearch, hzero] at h
    exact absurd h (by decide)
  -- one bit is enough: the sides of a membership agree about registered users only
  obtain ⟨g, hg⟩ := exists_bit hcap
  obtain ⟨id, hid, u, hget, hbit⟩ := exists_of_caller_cap hg
  obtain rfl := Option.mem_some.mp hid
  exact (hb.roster.flagged (flags_of_get? hget) hbit).1

end UserBase

namespace AuthServer

variable {s s' : AuthServer} {cfg : AuthConfig} {key : String} {kd : KeyData} {id : Int}

/-! ## Keys that are alive

A key may outlive its user. What has to be kept is that no live key belongs to a user that is
dropped; the condition on a step is that it drops no holder of one.
-/

/-- A key that is in the table, whose timer has not run out. -/
def Alive (s : AuthServer) (cfg : AuthConfig) (key : String) (kd : KeyData) : Prop :=
  s.keys.get? key = some kd ∧ s.authKeyRemove cfg kd = false

/-- The event drops a user who has a key that is alive. -/
def DropsKeyHolder (s : AuthServer) (cfg : AuthConfig) : AuthEvent → Prop
  | .user sid e cmd => s.base.funcSearch (s.userOf sid) cmd.capMask = true ∧
      ∃ key kd u, s.Alive cfg key kd ∧ s.base.Drops e cmd kd.user u
  | _ => False

/-- What holds while no user is dropped who has a key that is alive. -/
structure Guarded (s : AuthServer) (cfg : AuthConfig) : Prop where
  /-- users and groups -/
  base : s.base.Sound
  /-- the users of keys that are alive are registered -/
  keys : ∀ {key kd}, s.Alive cfg key kd → kd.user ∈ s.base.dlink

/-- The cleanup leaves the keys that are alive. -/
theorem htCleanup_get? : (s.htCleanup cfg).keys.get? key = some kd ↔ s.Alive cfg key kd := by
  rw [htCleanup, Ledger.get?_drop, Alive]
  cases hget : s.keys.get? key with
  | none =>
    rw [Option.any_none, if_neg Bool.false_ne_true]
    exact iff_of_false (fun h => nomatch h) fun h => nomatch h.1
  | some kd' =>
    rw [Option.any_some]
    by_cases hrun : s.authKeyRemove cfg kd' = true
    · rw [if_pos hrun]
      refine iff_of_false (fun h => nomatch h) ?_
      rintro ⟨heq, hfalse⟩
      obtain rfl := Option.some.inj heq
      rw [hrun] at hfalse
      cases hfalse
    · rw [if_neg hrun]
      refine ⟨fun heq => ⟨heq, ?_⟩, fun h => h.1⟩
      obtain rfl := Option.some.inj heq
      exact Bool.eq_false_of_not_eq_true hrun

/-- The users of all keys in the table are registered. -/
def KeysRegistered (s : AuthServer) : Prop :=
  ∀ {key kd}, s.keys.get? key = some kd → kd.user ∈ s.base.dlink

theorem Guarded.of_keysRegistered (hb : s.base.Sound) (h : s.KeysRegistered) : s.Guarded cfg :=
  ⟨hb, fun halive => h halive.1⟩

theorem Guarded.htCleanup (h : s.Guarded cfg) : (s.htCleanup cfg).KeysRegistered :=
  fun hget => h.keys (htCleanup_get?.mp hget)

/-- Sessions do not matter. -/
theorem Guarded.setSessions (h : s.Guarded cfg) (sessions : Ledger ℕ Session) :
    Guarded { s with sessions } cfg := ⟨h.base, h.keys⟩

/-! ## One event -/

/-- A key that is used starts again; whoever it is for is registered. -/
theorem Guarded.authKeyGetUser (h : s.Guarded cfg) (peer key : String) :
    (s.authKeyGetUser cfg peer key).2.Guarded cfg ∧
      (s.authKeyGetUser cfg peer key).2.base = s.base ∧
      ∀ id, (s.authKeyGetUser cfg peer key).1 = some id → id ∈ s.base.dlink := by
  -- the cleanup comes first, so the key that is found was alive
  have hclean : (s.htCleanup cfg).Guarded cfg := .of_keysRegistered h.base h.htCleanup
  rw [AuthServer.authKeyGetUser]
  cases hget : (s.htCleanup cfg).keys.get? key with
  | none => exact ⟨hclean, rfl, fun id hid => nomatch hid⟩
  | some kd =>
    have huser : kd.user ∈ s.base.dlink := h.htCleanup hget
    dsimp only
    by_cases hpeer : peer = kd.peer
    · rw [if_pos hpeer]
      refine ⟨.of_keysRegistered h.base fun {key' kd'} hget' => ?_, rfl, fun id hid => ?_⟩
      · rw [Ledger.get?_modify] at hget'
        by_cases hkey : key' = key
        · rw [if_pos hkey, hget] at hget'
          obtain rfl := Option.some.inj hget'
          exact huser
        · rw [if_neg hkey] at hget'
          exact h.htCleanup hget'
      · obtain rfl := Option.some.inj hid
        exact huser
    · rw [if_neg hpeer]
      exact ⟨hclean, rfl, fun id hid => nomatch hid⟩

/-- **Whoever authenticates is registered.** -/
theorem Guarded.mbbAuth (h : s.Guarded cfg) (ss : Session) (newSalt login : String)
    (secret type : Option String) :
    (s.mbbAuth cfg ss newSalt login secret type).2.1.Guarded cfg ∧
      (s.mbbAuth cfg ss newSalt login secret type).2.1.base = s.base ∧
      ∀ id, (s.mbbAuth cfg ss newSalt login secret type).1 = some id → id ∈ s.base.dlink := by
  rw [AuthServer.mbbAuth]
  dsimp only
  split
  · refine ⟨h, rfl, fun id hid => ?_⟩
    obtain ⟨u, pass, hu, -, -⟩ := UserBase.mbbAuthPlain_eq_some.mp hid
    exact (UserBase.userById_eq_some.mp (UserBase.userByName_some hu).1).1
  · split
    · exact h.authKeyGetUser ss.peer login
    · split
      · refine ⟨h, rfl, fun id hid => ?_⟩
        obtain ⟨u, salt, hu, -, -⟩ := UserBase.authSalt_eq_some.mp hid
        exact (UserBase.userById_eq_some.mp (UserBase.userByName_some hu).1).1
      · exact ⟨h, rfl, fun id hid => nomatch hid⟩

theorem Guarded.mbbSessionAuth (h : s.Guarded cfg) (sid : ℕ) (newSalt login : String)
    (secret type : Option String) :
    (s.mbbSessionAuth cfg sid newSalt login secret type).2.Guarded cfg ∧
      (s.mbbSessionAuth cfg sid newSalt login secret type).2.base = s.base ∧
      ∀ id, (s.mbbSessionAuth cfg sid newSalt login secret type).1 = some id →
        id ∈ s.base.dlink := by
  rw [AuthServer.mbbSessionAuth]
  cases s.sessions.get? sid with
  | none => exact ⟨h, rfl, fun id hid => nomatch hid⟩
  | some ss =>
    obtain ⟨hguard, hbase, huser⟩ := h.mbbAuth ss newSalt login secret type
    exact ⟨hguard.setSessions _, hbase, huser⟩

theorem Guarded.getAuthKeyCall (h : s.Guarded cfg) (sid : ℕ) (key : String) :
    (s.getAuthKeyCall cfg sid key).Guarded cfg ∧
      (s.getAuthKeyCall cfg sid key).base = s.base := by
  rw [AuthServer.getAuthKeyCall]
  split
  · exact ⟨h, rfl⟩
  · split
    · exact ⟨h, rfl⟩
    · rename_i user _
      split
      -- a session whose user is gone has an empty mask and does not find the method
      · rename_i hfound
        have huser := UserBase.registered_of_funcSearch h.base hfound
        rw [getAuthKey]
        split
        · refine ⟨.of_keysRegistered h.base fun {key' kd'} hget => ?_, rfl⟩
          rw [Ledger.get?_put] at hget
          by_cases hkey : key' = key
          · rw [if_pos hkey] at hget
            obtain rfl := Option.some.inj hget
            exact huser
          · rw [if_neg hkey] at hget
            exact h.htCleanup hget
        · exact ⟨.of_keysRegistered h.base h.htCleanup, rfl⟩
      · exact ⟨h, rfl⟩

theorem Guarded.dropAuthKeyCall (h : s.Guarded cfg) (sid : ℕ) (key : String) :
    (s.dropAuthKeyCall cfg sid key).2.Guarded cfg ∧
      (s.dropAuthKeyCall cfg sid key).2.base = s.base := by
  rw [AuthServer.dropAuthKeyCall]
  split
  · rw [dropAuthKey]
    dsimp only
    split
    · exact ⟨.of_keysRegistered h.base h.htCleanup, rfl⟩
    · refine ⟨.of_keysRegistered h.base fun {key' kd'} hget => ?_, rfl⟩
      rw [Ledger.get?_drop] at hget
      by_cases hkey : decide (key' = key) = true
      · rw [if_pos hkey] at hget
        cases hget
      · rw [if_neg hkey] at hget
        exact h.htCleanup hget
  · exact ⟨h, rfl⟩

/-- What a call does to users and groups. -/
theorem userCall_effect (s : AuthServer) (sid : ℕ) (e : Env) (cmd : UserCmd) :
    (s.userCall sid e cmd).2.base = s.base ∨
      (s.base.funcSearch (s.userOf sid) cmd.capMask = true ∧
        s.base.Effect e (s.base.caller (s.userOf sid)) cmd (s.userCall sid e cmd).2.base) :=
  UserBase.funcCall_effect (s.userOf sid) cmd

theorem Guarded.userCall (h : s.Guarded cfg) {sid : ℕ} {e : Env} {cmd : UserCmd}
    (hdrop : ¬ s.DropsKeyHolder cfg (.user sid e cmd)) :
    (s.userCall sid e cmd).2.Guarded cfg := by
  refine ⟨h.base.funcCall _ cmd, fun {key kd} halive => ?_⟩
  have hmem : kd.user ∈ s.base.dlink := h.keys halive
  rcases s.userCall_effect sid e cmd with heq | ⟨hfound, heffect⟩
  · rw [heq]
    exact hmem
  -- the user of a key that is alive stays registered, unless the command drops it
  · exact (heffect.registered hmem).resolve_right fun ⟨u, hdrops⟩ =>
      hdrop ⟨hfound, key, kd, u, halive, hdrops⟩

/-- Time makes no key alive. -/
theorem Guarded.pass (h : s.Guarded cfg) (time : ℕ) :
    Guarded { s with now := s.now + time } cfg := by
  refine ⟨h.base, fun {key kd} halive => ?_⟩
  refine h.keys ⟨halive.1, ?_⟩
  have hrun := of_decide_eq_false halive.2
  refine decide_eq_false fun hle => hrun (hle.trans ?_)
  exact Nat.sub_le_sub_right (Nat.le_add_right s.now time) kd.timer

/-- **One event.** -/
theorem Guarded.exec (h : s.Guarded cfg) {ev : AuthEvent} (hdrop : ¬ s.DropsKeyHolder cfg ev) :
    (s.exec cfg ev).Guarded cfg := by
  cases ev with
  | sessionNew sid peer msgQueue => exact h.setSessions _
  | sessionQuit sid => exact h.setSessions _
  | auth sid newSalt login secret type => exact (h.mbbSessionAuth sid newSalt login secret type).1
  | user sid e cmd => exact h.userCall hdrop
  | getAuthKey sid key => exact (h.getAuthKeyCall sid key).1
  | dropAuthKey sid key => exact (h.dropAuthKeyCall sid key).1
  | pass time => exact h.pass time

theorem Guarded.gone (h : s.Guarded cfg) (hid : s.base.Gone id) (ev : AuthEvent) :
    (s.exec cfg ev).base.Gone id := by
  cases ev with
  | sessionNew sid peer msgQueue => exact hid
  | sessionQuit sid => exact hid
  | auth sid newSalt login secret type =>
    exact (h.mbbSessionAuth sid newSalt login secret type).2.1.symm ▸ hid
  | user sid e cmd =>
    rcases s.userCall_effect sid e cmd with heq | ⟨-, heffect⟩
    · exact heq.symm ▸ hid
    · exact heffect.gone hid
  | getAuthKey sid key => exact (h.getAuthKeyCall sid key).2.symm ▸ hid
  | dropAuthKey sid key => exact (h.dropAuthKeyCall sid key).2.symm ▸ hid
  | pass time => exact hid

/-! ## Every run

As long as no step drops the holder of a live key, whoever authenticates is registered; and a user
that is gone stays gone.
-/

theorem Guarded.init (t : UserTables) (now : ℕ) : (init t now).Guarded cfg :=
  ⟨(UserBase.load_sound t).1, fun halive => nomatch halive.1⟩

theorem Guarded.reach (h : s.Guarded cfg)
    (hreach : Reaches cfg (fun s ev => ¬ s.DropsKeyHolder cfg ev) s s') : s'.Guarded cfg := by
  induction hreach with
  | refl => exact h
  | tail _ hstep ih =>
    obtain ⟨ev, hdrop, rfl⟩ := hstep
    exact ih.exec hdrop

theorem Guarded.reach_gone (h : s.Guarded cfg) (hid : s.base.Gone id)
    (hreach : Reaches cfg (fun s ev => ¬ s.DropsKeyHolder cfg ev) s s') : s'.base.Gone id := by
  induction hreach with
  | refl => exact hid
  | tail hreach hstep ih =>
    obtain ⟨ev, hdrop, rfl⟩ := hstep
    exact (h.reach hreach).gone ih ev

/-- **Dropped users cannot log in.** In a run of the server in which no user is dropped who
has a key that is alive, nobody authenticates as a user that has been dropped before, by any
method, with any login or key and any secret. -/
theorem dropped_user_cannot_log_in (t : UserTables) (now : ℕ) {s₁ s₂ s₃ : AuthServer}
    (h₁ : Reaches cfg (fun s ev => ¬ s.DropsKeyHolder cfg ev) (init t now) s₁)
    {sid : ℕ} {e : Env} {name : String} {u : MbbUser}
    (hu : s₁.base.userByName name = some (id, u))
    (hdrop : s₁.userCall sid e (.dropUser name) = (some none, s₂))
    (hkeys : ¬ s₁.DropsKeyHolder cfg (.user sid e (.dropUser name)))
    (h₂ : Reaches cfg (fun s ev => ¬ s.DropsKeyHolder cfg ev) s₂ s₃) :
    ∀ sid newSalt login secret type,
      (s₃.mbbSessionAuth cfg sid newSalt login secret type).1 ≠ some id := by
  have hguard₁ := (Guarded.init t now).reach h₁
  have hs₂ : s₁.exec cfg (.user sid e (.dropUser name)) = s₂ := congrArg Prod.snd hdrop
  have hguard₂ : s₂.Guarded cfg := hs₂ ▸ hguard₁.exec hkeys
  have hgone₂ : s₂.base.Gone id := by
    rw [← hs₂]
    exact (UserBase.funcCall_done (congrArg Prod.fst hdrop)).gone_of_drop hu
  intro sid newSalt login secret type hauth
  -- whoever authenticates is registered, and the dropped user is registered no more
  have hregistered := ((hguard₂.reach h₂).mbbSessionAuth sid newSalt login secret type).2.2 id hauth
  exact (hguard₂.reach_gone hgone₂ h₂).1 hregistered

/-! ## Two runs

A user is dropped without a key, and cannot log in; another is dropped with one, and can.
-/

/-- Root gets a key and gives it up, adds a user and drops it again. -/
theorem dropped_user_cannot_log_in_plain :
    let cfg : AuthConfig := ⟨60, UserBase.parity⟩
    let env := fun id => (⟨0, id, fun _ => true⟩ : Env)
    let s₁ := (init .initial 0).run cfg [.sessionNew 1 "peer" true,
      .auth 1 "" "root" (some "toor") none, .getAuthKey 1 "k",
      .user 1 (env 2) (.addUser "bob" (some "x")), .pass 1000000, .dropAuthKey 1 "k"]
    let s₂ := (s₁.userCall 1 (env 0) (.dropUser "bob")).2
    (s₁.mbbSessionAuth cfg 1 "" "bob" (some "x") none).1 = some 2 ∧
      s₂.base.userById 2 = none ∧ ∀ sid newSalt login secret type,
        (s₂.mbbSessionAuth cfg sid newSalt login secret type).1 ≠ some 2 := by
  intro cfg env s₁ s₂
  have h₁ : Reaches cfg (fun s ev => ¬ s.DropsKeyHolder cfg ev) (init .initial 0) s₁ := by
    refine reaches_run (fun ev hev s hdrops => ?_) _
    cases ev with
    | user sid e cmd =>
      obtain ⟨-, key, kd, u, -, name, rfl, -⟩ := hdrops
      simp at hev
    | _ => exact hdrops
  have hkeys : ¬ s₁.DropsKeyHolder cfg (.user 1 (env 0) (.dropUser "bob")) := by
    rintro ⟨-, key, kd, u, halive, -⟩
    have hrows : s₁.keys.rows = [] := by decide +kernel
    have hget := halive.1
    rw [Ledger.get?, hrows] at hget
    cases hget
  have hdone : (s₁.userCall 1 (env 0) (.dropUser "bob")).1 = some none := by decide +kernel
  have hid : (s₁.base.userByName "bob").map Prod.fst = some 2 := by decide +kernel
  obtain ⟨⟨id, u⟩, hu, rfl⟩ := Option.map_eq_some_iff.mp hid
  have hauth : (s₁.mbbSessionAuth cfg 1 "" "bob" (some "x") none).1 = some 2 := by decide +kernel
  have hgone : s₂.base.userById 2 = none := by decide +kernel
  have hdrop : s₁.userCall 1 (env 0) (.dropUser "bob") = (some none, s₂) := Prod.ext hdone rfl
  have hlast := dropped_user_cannot_log_in .initial 0 h₁ hu hdrop hkeys .refl
  exact ⟨hauth, hgone, hlast⟩

/-- Root gets a key and is dropped; a session of the same peer authenticates as root with
the key. -/
theorem dropped_user_logs_in_by_key :
    let cfg : AuthConfig := ⟨60, UserBase.parity⟩
    let env : Env := ⟨0, 0, fun _ => true⟩
    let s₁ := (init .initial 0).run cfg [.sessionNew 1 "peer" true,
      .auth 1 "" "root" (some "toor") none, .getAuthKey 1 "k"]
    let r := s₁.userCall 1 env (.dropUser "root")
    let s₃ := r.2.run cfg [.sessionNew 2 "peer" true, .pass 1000000]
    Reaches cfg (fun _ _ => True) (init .initial 0) s₁ ∧
      (s₁.base.userByName "root").map Prod.fst = some 1 ∧ r.1 = some none ∧
      Reaches cfg (fun _ _ => True) r.2 s₃ ∧ s₃.base.userById 1 = none ∧
      (s₃.mbbSessionAuth cfg 2 "" "k" none (some "key")).1 = some 1 := by
  intro cfg env s₁ r s₃
  exact ⟨reaches_run (fun _ _ _ => trivial) _, by decide +kernel, by decide +kernel,
    reaches_run (fun _ _ _ => trivial) _, by decide +kernel, by decide +kernel⟩

end AuthServer

end Mbb
