import Mbb.Lib.Roster
import Mbb.UserCmd

/-!
# Membership

That a user is in a group is stored twice: in the table of the group and in the mask of the
user. The commands change both sides, except that `mbb_user_remove` empties the mask before
`mbb_user_detach` reads from it which groups the user is in: a user that is dropped stays in
their tables.
-/

namespace Mbb

namespace UserBase

variable {b : UserBase} {e : Env} {c : Caller} {id : Int} {u : MbbUser} {g : ℕ} {group : MbbGroup}

/-! ## What lookups find -/

theorem userById_eq_some : b.userById id = some u ↔ id ∈ b.dlink ∧ b.users.get? id = some u := by
  rw [userById]
  by_cases hid : id ∈ b.dlink
  · rw [if_pos hid]
    exact (and_iff_right hid).symm
  · rw [if_neg hid]
    exact iff_of_false (fun h => nomatch h) fun h => hid h.1

theorem userByName_some {name : String} (h : b.userByName name = some (id, u)) :
    b.userById id = some u ∧ u.name = name := by
  obtain ⟨k, hk, hfound⟩ := List.exists_of_findSome?_eq_some h
  obtain ⟨v, hv, heq⟩ := Option.bind_eq_some_iff.mp hfound
  by_cases hname : v.name = name
  · rw [if_pos hname] at heq
    obtain ⟨rfl, rfl⟩ := Prod.mk.inj (Option.some.inj heq)
    exact ⟨userById_eq_some.mpr ⟨hk, hv⟩, hname⟩
  · rw [if_neg hname] at heq
    cases heq

theorem userByName_eq_none {name : String} :
    b.userByName name = none ↔ ∀ id u, b.userById id = some u → u.name ≠ name := by
  rw [userByName, List.findSome?_eq_none_iff]
  constructor
  · intro h id u hu hname
    obtain ⟨hid, hget⟩ := userById_eq_some.mp hu
    have hnone := h id hid
    rw [hget, Option.bind_some, if_pos hname] at hnone
    cases hnone
  · intro h id hid
    cases hget : b.users.get? id with
    | none => rfl
    | some u =>
      rw [Option.bind_some, if_neg (h id u (userById_eq_some.mpr ⟨hid, hget⟩))]

theorem groupByName_some {name : String} (h : b.groupByName name = some (g, group)) :
    b.groups.get? g = some group := Ledger.get?_of_find? h

/-! ## What the operations change -/

theorem groupAddUser_of_not_mem (hg : b.groups.get? g = some group) (hnot : id ∉ group.users) :
    b.groupAddUser g id =
      { b with
        groups := b.groups.modify g fun g => { g with users := id :: g.users }
        users := b.users.modify id fun u => { u with capMask := u.capMask ||| capOf g } } := by
  rw [groupAddUser, hg, if_neg]
  rw [Option.any_some, groupHasUser, decide_eq_true_iff]
  exact hnot

theorem groupAddUser_of_mem (hg : b.groups.get? g = some group) (hmem : id ∈ group.users) :
    b.groupAddUser g id = b := by
  rw [groupAddUser, hg, if_pos]
  rw [Option.any_some, groupHasUser, decide_eq_true_iff]
  exact hmem

theorem groupDelUser_of_mem (hg : b.groups.get? g = some group) (hmem : id ∈ group.users) :
    b.groupDelUser g id =
      { b with
        groups := b.groups.modify g fun g =>
          { g with users := g.users.filter fun k => decide (k ≠ id) }
        users := b.users.modify id fun u => { u with capMask := u.capMask &&& ~~~capOf g } } := by
  rw [groupDelUser, hg, if_pos]
  rw [Option.any_some, groupHasUser, decide_eq_true_iff]
  exact hmem

/-- The mask is empty when `mbb_user_detach` reads it, and no group is left. -/
theorem userRemove_eq (b : UserBase) (id : Int) :
    b.userRemove id = (b.clearCapMask id).dlinkSteal id := by
  -- the loop of `mbb_user_detach` runs over the bits of a mask that is 0
  have hmask : (((b.clearCapMask id).users.get? id).map MbbUser.capMask).getD 0#32 = 0#32 := by
    rw [clearCapMask, Ledger.get?_modify, if_pos rfl]
    cases b.users.get? id <;> rfl
  rw [userRemove, userDetach, hmask]
  rfl

theorem userModName_of_none {newname : String} (h : b.userByName newname = none) :
    (b.userModName id newname).2 =
      { b with
        users := b.users.modify id fun u => { u with name := newname }
        dlink := id :: (b.dlinkSteal id).dlink } := by
  rw [userModName, h]
  rfl

/-- Who is registered stays so under another name. -/
theorem mem_userModName_dlink {k : Int} {newname : String} (hu : b.userById id = some u)
    (hnew : b.userByName newname = none) :
    k ∈ (b.userModName id newname).2.dlink ↔ k ∈ b.dlink := by
  rw [userModName_of_none hnew, List.mem_cons, dlinkSteal, List.mem_filter, decide_eq_true_iff]
  by_cases hk : k = id
  · rw [hk]
    exact iff_of_true (Or.inl rfl) (userById_eq_some.mp hu).1
  · simp [hk]

/-! ## Both sides

The two sides as functions of a user and a group. They say the same of users that are registered.
-/

/-- The users in the table of a group. -/
def lists (b : UserBase) : ℕ → Option (List Int) := b.groups.col MbbGroup.users

/-- The groups in the mask of a user. -/
def flags (b : UserBase) : Int → Option (ℕ → Bool) := b.users.col fun u => u.capMask.getLsbD

/-- The name of a registered user. -/
def nameOf (b : UserBase) (id : Int) : Option String :=
  if id ∈ b.dlink then b.users.col MbbUser.name id else none

/-- What holds of users and groups in every run. -/
structure Sound (b : UserBase) : Prop where
  /-- the sides agree about registered users -/
  roster : Roster b.lists b.flags (· ∈ b.dlink)
  /-- a mask has a bit for each group -/
  groupId : ∀ {g}, b.groups.get? g ≠ none → g < 32
  /-- a registered user has a record -/
  registered : ∀ {id}, id ∈ b.dlink → b.users.get? id ≠ none
  /-- a name is that of one user -/
  names : ∀ {id id' name}, b.nameOf id = some name → b.nameOf id' = some name → id = id'

theorem flags_of_get? (h : b.users.get? id = some u) : b.flags id = some u.capMask.getLsbD :=
  Ledger.col_of_get? h _

theorem lists_of_get? (h : b.groups.get? g = some group) : b.lists g = some group.users :=
  Ledger.col_of_get? h _

theorem nameOf_eq_some {name : String} :
    b.nameOf id = some name ↔ ∃ u, b.userById id = some u ∧ u.name = name := by
  rw [nameOf, userById]
  by_cases hid : id ∈ b.dlink
  · rw [if_pos hid, if_pos hid]
    exact Option.map_eq_some_iff
  · rw [if_neg hid, if_neg hid]
    exact iff_of_false (fun h => nomatch h) fun ⟨_, h, _⟩ => nomatch h

theorem nameOf_ne {name : String} (h : b.userByName name = none) (id : Int) :
    b.nameOf id ≠ some name := by
  intro hname
  obtain ⟨u, hu, hu'⟩ := nameOf_eq_some.mp hname
  exact userByName_eq_none.mp h id u hu hu'

/-- A user gets a name that nobody has. -/
theorem names_of_fresh {b b' : UserBase} (id : Int) {name : String}
    (h : ∀ {i j n}, b.nameOf i = some n → b.nameOf j = some n → i = j)
    (hfresh : ∀ i, b.nameOf i ≠ some name)
    (hb' : ∀ {i n}, b'.nameOf i = some n → b.nameOf i = some n ∨ (i = id ∧ n = name))
    {i j : Int} {n : String} (hi : b'.nameOf i = some n) (hj : b'.nameOf j = some n) : i = j := by
  -- two owners of a name are both old, or one of them is the new one, whose name is fresh
  rcases hb' hi with hi | ⟨rfl, rfl⟩
  · rcases hb' hj with hj | ⟨rfl, rfl⟩
    · exact h hi hj
    · exact absurd hi (hfresh i)
  · rcases hb' hj with hj | ⟨rfl, -⟩
    · exact absurd hj (hfresh j)
    · rfl

namespace Sound

theorem empty : UserBase.empty.Sound :=
  ⟨Roster.nil _, (fun h => absurd rfl h), (fun h => nomatch h), (fun h => nomatch h)⟩

/-! ### Users -/

/-- A change that neither the mask nor the name shows. -/
theorem modUser (h : b.Sound) {f : MbbUser → MbbUser} (hmask : ∀ u, (f u).capMask = u.capMask)
    (hname : ∀ u, (f u).name = u.name) (id : Int) :
    Sound { b with users := b.users.modify id f } := by
  have hflags : (b.users.modify id f).col (fun u => u.capMask.getLsbD) = b.flags :=
    Ledger.col_modify_same (by intro u; rw [hmask u]) b.users id
  have hnames : (b.users.modify id f).col MbbUser.name = b.users.col MbbUser.name :=
    Ledger.col_modify_same hname b.users id
  refine ⟨?_, h.groupId, fun hid heq => ?_, fun {i j n} hi hj => ?_⟩
  · change Roster b.lists ((b.users.modify id f).col _) _
    rw [hflags]
    exact h.roster
  · exact h.registered hid (Ledger.get?_modify_eq_none.mp heq)
  · rw [nameOf, hnames] at hi hj
    exact h.names hi hj

theorem userModPass (h : b.Sound) (id : Int) (newpass : Option String) :
    (b.userModPass id newpass).Sound :=
  h.modUser (f := fun u => { u with secret := newpass }) (fun _ => rfl) (fun _ => rfl) id

theorem userAddConsumer (h : b.Sound) (id con : Int) : (b.userAddConsumer id con).Sound :=
  h.modUser
    (f := fun u => { u with childs := if con ∈ u.childs then u.childs else con :: u.childs })
    (fun _ => rfl) (fun _ => rfl) id

/-- A user enters with an id that has not been used and a name that nobody has. -/
theorem userJoin (h : b.Sound) (hid : b.users.get? id = none) {name : String}
    (hname : b.userByName name = none) (secret : Option String) :
    (b.userJoin id name secret).Sound := by
  refine ⟨?_, h.groupId, fun {k} hk heq => ?_,
    names_of_fresh id h.names (nameOf_ne hname) fun {k n} hk => ?_⟩
  · have hflags : (b.userJoin id name secret).flags =
        Function.update b.flags id (some fun _ => false) := by
      refine (Ledger.col_put _ _ _ _).trans
        (congrArg (fun f : ℕ → Bool => Function.update b.flags id (some f)) ?_)
      funext n
      exact BitVec.getLsbD_zero
    rw [hflags]
    exact (h.roster.enter (Ledger.col_eq_none.mpr hid)).live_congr fun _ => List.mem_cons
  · rw [UserBase.userJoin, Ledger.get?_put] at heq
    rcases List.mem_cons.mp hk with rfl | hk
    · rw [if_pos rfl] at heq
      cases heq
    · by_cases hkid : k = id
      · rw [if_pos hkid] at heq
        cases heq
      · rw [if_neg hkid] at heq
        exact h.registered hk heq
  · obtain ⟨u, hu, rfl⟩ := nameOf_eq_some.mp hk
    obtain ⟨hmem, hget⟩ := userById_eq_some.mp hu
    rw [UserBase.userJoin, Ledger.get?_put] at hget
    by_cases hkid : k = id
    · rw [if_pos hkid] at hget
      obtain rfl := Option.some.inj hget
      exact Or.inr ⟨hkid, rfl⟩
    · rw [if_neg hkid] at hget
      have hmem' := (List.mem_cons.mp hmem).resolve_left hkid
      exact Or.inl (nameOf_eq_some.mpr ⟨u, userById_eq_some.mpr ⟨hmem', hget⟩, rfl⟩)

/-- A user is dropped. -/
theorem userRemove (h : b.Sound) (id : Int) (hid : b.users.get? id = some u) :
    (b.userRemove id).Sound := by
  rw [userRemove_eq]
  refine ⟨?_, h.groupId, fun {k} hk heq => ?_, fun {i j n} hi hj => ?_⟩
  · have hflags : (b.clearCapMask id).flags =
        Function.update b.flags id (some fun _ => false) := by
      refine (Ledger.col_modify hid _ _).trans
        (congrArg (fun f : ℕ → Bool => Function.update b.flags id (some f)) ?_)
      funext n
      exact BitVec.getLsbD_zero
    change Roster b.lists (b.clearCapMask id).flags _
    rw [hflags]
    -- the tables of the groups keep the user: the sides agree about the others only
    refine (h.roster.leave id).live_congr fun k => ?_
    rw [dlinkSteal, List.mem_filter, decide_eq_true_iff]
    exact and_comm
  · exact h.registered (List.mem_filter.mp hk).1 (Ledger.get?_modify_eq_none.mp heq)
  · have hold : ∀ {k m}, ((b.clearCapMask id).dlinkSteal id).nameOf k = some m →
        b.nameOf k = some m := by
      intro k m hk
      have hcol : (b.clearCapMask id).users.col MbbUser.name = b.users.col MbbUser.name :=
        Ledger.col_modify_same (by intro u; rfl) b.users id
      rw [nameOf, dlinkSteal, hcol] at hk
      by_cases hmem : k ∈ b.dlink.filter fun k => decide (k ≠ id)
      · rw [nameOf, if_pos (List.mem_filter.mp hmem).1]
        exact (if_pos hmem).symm.trans hk
      · exact nomatch (if_neg hmem).symm.trans hk
    exact h.names (hold hi) (hold hj)

/-- A user gets a name that nobody has. -/
theorem userModName (h : b.Sound) (hu : b.userById id = some u) {newname : String}
    (hnew : b.userByName newname = none) : (b.userModName id newname).2.Sound := by
  have hget := (userById_eq_some.mp hu).2
  have husers : (b.userModName id newname).2.users =
      b.users.modify id fun u => { u with name := newname } := by
    rw [userModName_of_none hnew]
  refine ⟨?_, ?_, fun {k} hk heq => ?_,
    names_of_fresh id h.names (nameOf_ne hnew) fun {k n} hk => ?_⟩
  -- the mask goes with the record, and the user is registered as before
  · have hflags : (b.userModName id newname).2.flags = b.flags := by
      rw [flags, husers]
      exact Ledger.col_modify_same (by intro u; rfl) b.users id
    have hlists : (b.userModName id newname).2.lists = b.lists := by
      rw [userModName_of_none hnew]
      rfl
    rw [hflags, hlists]
    exact h.roster.live_congr fun k => mem_userModName_dlink hu hnew
  · rw [userModName_of_none hnew]
    exact h.groupId
  · rw [husers] at heq
    exact h.registered ((mem_userModName_dlink hu hnew).mp hk) (Ledger.get?_modify_eq_none.mp heq)
  · obtain ⟨v, hv, rfl⟩ := nameOf_eq_some.mp hk
    obtain ⟨hmem, hvget⟩ := userById_eq_some.mp hv
    rw [husers, Ledger.get?_modify] at hvget
    by_cases hkid : k = id
    · rw [if_pos hkid, hget] at hvget
      obtain rfl := Option.some.inj hvget
      exact Or.inr ⟨hkid, rfl⟩
    · rw [if_neg hkid] at hvget
      have hmem' := (mem_userModName_dlink hu hnew).mp hmem
      exact Or.inl (nameOf_eq_some.mpr ⟨v, userById_eq_some.mpr ⟨hmem', hvget⟩, rfl⟩)

/-! ### Groups -/

theorem groupJoin (h : b.Sound) (hg : b.groups.get? g = none) (hlt : g < 32) (name : String) :
    (b.groupJoin g name).Sound := by
  refine ⟨?_, fun {k} hk => ?_, h.registered, h.names⟩
  · have hlists : (b.groupJoin g name).lists = Function.update b.lists g (some []) :=
      Ledger.col_put _ _ _ _
    rw [hlists]
    exact h.roster.newGroup (Ledger.col_eq_none.mpr hg)
  · rw [UserBase.groupJoin, Ledger.get?_put] at hk
    by_cases hkg : k = g
    · exact hkg ▸ hlt
    · rw [if_neg hkg] at hk
      exact h.groupId hk

/-- Both sides of a membership change, and nothing else. -/
theorem modGroup (h : b.Sound) (hg : b.groups.get? g = some group)
    (hu : b.users.get? id = some u) {f : List Int → List Int} {m : BitVec 32 → BitVec 32}
    (hroster : Roster (Function.update b.lists g (some (f group.users)))
      (Function.update b.flags id (some (m u.capMask).getLsbD)) (· ∈ b.dlink)) :
    Sound { b with
      groups := b.groups.modify g fun g => { g with users := f g.users }
      users := b.users.modify id fun u => { u with capMask := m u.capMask } } := by
  have hnames : (b.users.modify id fun u => { u with capMask := m u.capMask }).col MbbUser.name =
      b.users.col MbbUser.name := Ledger.col_modify_same (by intro u; rfl) b.users id
  refine ⟨?_, fun hk => h.groupId fun heq => hk (Ledger.get?_modify_eq_none.mpr heq),
    fun hid heq => h.registered hid (Ledger.get?_modify_eq_none.mp heq), fun {i j n} hi hj => ?_⟩
  · change Roster ((b.groups.modify g _).col _) ((b.users.modify id _).col _) _
    rw [Ledger.col_modify hg, Ledger.col_modify hu]
    exact hroster
  · rw [nameOf, hnames] at hi hj
    exact h.names hi hj

/-- A registered user enters a group. -/
theorem groupAddUser (h : b.Sound) (hg : b.groups.get? g = some group)
    (hu : b.userById id = some u) : (b.groupAddUser g id).Sound := by
  obtain ⟨hid, hget⟩ := userById_eq_some.mp hu
  by_cases hmem : id ∈ group.users
  · rw [groupAddUser_of_mem hg hmem]
    exact h
  · have hlt : g < 32 := h.groupId (hg ▸ Option.some_ne_none group)
    rw [groupAddUser_of_not_mem hg hmem]
    refine h.modGroup (f := fun l => id :: l) (m := fun m => m ||| capOf g) hg hget ?_
    rw [getLsbD_or_capOf hlt]
    exact h.roster.add (lists_of_get? hg) (flags_of_get? hget) hid

/-- A user leaves a group. -/
theorem groupDelUser (h : b.Sound) (hg : b.groups.get? g = some group)
    (hget : b.users.get? id = some u) (hmem : id ∈ group.users) : (b.groupDelUser g id).Sound := by
  have hlt : g < 32 := h.groupId (hg ▸ Option.some_ne_none group)
  rw [groupDelUser_of_mem hg hmem]
  refine h.modGroup (f := fun l => l.filter fun k => decide (k ≠ id))
    (m := fun m => m &&& ~~~capOf g) hg hget ?_
  rw [getLsbD_and_not_capOf hlt]
  exact h.roster.del (lists_of_get? hg) (flags_of_get? hget)

/-- Every change keeps it. -/
theorem effect (h : b.Sound) {cmd : UserCmd} {b' : UserBase} (heffect : b.Effect e c cmd b') :
    b'.Sound := by
  cases heffect with
  | addUser hid hname => exact h.userJoin hid hname _
  | dropUser hu hchilds hdb =>
    exact h.userRemove _ (userById_eq_some.mp (userByName_some hu).1).2
  | userModName hu hnew hdb => exact h.userModName (userByName_some hu).1 hnew
  | userModPass hu hdb => exact h.userModPass _ _
  | selfModPass hu => exact h.userModPass _ _
  | groupAddUser hg hu hcap hnot =>
    exact h.groupAddUser (groupByName_some hg) (userByName_some hu).1
  | groupDelUser hg hu hcap hmem =>
    exact h.groupDelUser (groupByName_some hg) (userById_eq_some.mp (userByName_some hu).1).2 hmem

end Sound

/-! ## Users that are gone

A user that was dropped has an empty mask, but may still be in tables. The condition on a step is
that it drops no member.
-/

/-- No group lists a user that has been dropped. -/
def Tidy (b : UserBase) : Prop := NoneGone b.lists (· ∈ b.dlink)

/-- The command drops a user that is in a group. -/
def DropsMember (b : UserBase) (e : Env) (cmd : UserCmd) : Prop :=
  ∃ id u, b.Drops e cmd id u ∧ u.capMask ≠ 0#32

namespace Tidy

theorem userJoin (h : b.Tidy) (id : Int) (name : String) (secret : Option String) :
    (b.userJoin id name secret).Tidy := h.mono fun _ => List.mem_cons_of_mem id

theorem groupJoin (h : b.Tidy) (g : ℕ) (name : String) : (b.groupJoin g name).Tidy := by
  have hlists : (b.groupJoin g name).lists = Function.update b.lists g (some []) :=
    Ledger.col_put _ _ _ _
  rw [Tidy, hlists]
  exact h.set fun u hu => nomatch hu

theorem groupAddUser (h : b.Tidy) (hg : b.groups.get? g = some group) (hid : id ∈ b.dlink) :
    (b.groupAddUser g id).Tidy := by
  by_cases hmem : id ∈ group.users
  · rw [groupAddUser_of_mem hg hmem]
    exact h
  · rw [groupAddUser_of_not_mem hg hmem]
    change NoneGone ((b.groups.modify g _).col _) _
    rw [Ledger.col_modify hg]
    refine h.set fun k hk => ?_
    rcases List.mem_cons.mp hk with rfl | hk
    · exact hid
    · exact h g group.users (lists_of_get? hg) k hk

theorem groupDelUser (h : b.Tidy) (hg : b.groups.get? g = some group) (hmem : id ∈ group.users) :
    (b.groupDelUser g id).Tidy := by
  rw [groupDelUser_of_mem hg hmem]
  change NoneGone ((b.groups.modify g _).col _) _
  rw [Ledger.col_modify hg]
  exact h.set fun k hk => h g group.users (lists_of_get? hg) k (List.mem_filter.mp hk).1

/-- A user that is in no group is dropped. -/
theorem userRemove (h : b.Tidy) (hb : b.Sound) (hu : b.users.get? id = some u)
    (hmask : u.capMask = 0#32) : (b.userRemove id).Tidy := by
  have hflags : b.flags id = some fun _ => false := by
    rw [flags_of_get? hu, hmask]
    refine congrArg some (funext fun n => ?_)
    exact BitVec.getLsbD_zero
  rw [userRemove_eq]
  refine (hb.roster.noneGone_leave h hflags).mono fun k hk => ?_
  exact List.mem_filter.mpr ⟨hk.2, decide_eq_true hk.1⟩

theorem userModName (h : b.Tidy) (hu : b.userById id = some u) {newname : String}
    (hnew : b.userByName newname = none) : (b.userModName id newname).2.Tidy := by
  have hlists : (b.userModName id newname).2.lists = b.lists := by
    rw [userModName_of_none hnew]
    rfl
  rw [Tidy, hlists]
  exact h.mono fun k hk => (mem_userModName_dlink hu hnew).mpr hk

/-- Every change keeps it, as long as no member is dropped. -/
theorem effect (h : b.Tidy) (hb : b.Sound) {cmd : UserCmd} {b' : UserBase}
    (heffect : b.Effect e c cmd b') (hdrop : ¬ b.DropsMember e cmd) : b'.Tidy := by
  cases heffect with
  | addUser hid hname => exact h.userJoin _ _ _
  | dropUser hu hchilds hdb =>
    -- the mask is empty, or a member would be dropped
    refine h.userRemove hb (userById_eq_some.mp (userByName_some hu).1).2 ?_
    by_contra hmask
    exact hdrop ⟨_, _, ⟨_, rfl, hu, hchilds, hdb⟩, hmask⟩
  | userModName hu hnew hdb => exact h.userModName (userByName_some hu).1 hnew
  | userModPass hu hdb => exact h
  | selfModPass hu => exact h
  | groupAddUser hg hu hcap hnot =>
    exact h.groupAddUser (groupByName_some hg) (userById_eq_some.mp (userByName_some hu).1).1
  | groupDelUser hg hu hcap hmem => exact h.groupDelUser (groupByName_some hg) hmem

end Tidy

/-! ## Loading

At the start users, groups and members come from the tables of the database, in this order.
-/

/-- The rows of `users` enter one by one. -/
theorem loadUsers_sound {rows : List (Int × UserRow)}
    (hrows : rows.Pairwise fun r r' => r.1 ≠ r'.1 ∧ r.2.name ≠ r'.2.name) (h : b.Sound)
    (hid : ∀ r ∈ rows, b.users.get? r.1 = none)
    (hname : ∀ r ∈ rows, b.userByName r.2.name = none) (htidy : b.Tidy) :
    (rows.foldl (fun b r => b.userJoin r.1 r.2.name r.2.secret) b).Sound ∧
      (rows.foldl (fun b r => b.userJoin r.1 r.2.name r.2.secret) b).Tidy ∧
      (rows.foldl (fun b r => b.userJoin r.1 r.2.name r.2.secret) b).groups = b.groups := by
  induction rows generalizing b with
  | nil => exact ⟨h, htidy, rfl⟩
  | cons r rows ih =>
    obtain ⟨hr, hrows⟩ := List.pairwise_cons.mp hrows
    -- the rows to come differ from this one in id and name, so both stay free for them
    have hid' : ∀ r' ∈ rows, (b.userJoin r.1 r.2.name r.2.secret).users.get? r'.1 = none := by
      intro r' hr'
      rw [userJoin, Ledger.get?_put, if_neg (hr r' hr').1.symm]
      exact hid r' (List.mem_cons_of_mem r hr')
    have hname' : ∀ r' ∈ rows,
        (b.userJoin r.1 r.2.name r.2.secret).userByName r'.2.name = none := by
      intro r' hr'
      refine userByName_eq_none.mpr fun k u hu => ?_
      obtain ⟨hk, hget⟩ := userById_eq_some.mp hu
      rw [userJoin, Ledger.get?_put] at hget
      by_cases hkr : k = r.1
      · rw [if_pos hkr] at hget
        rw [← Option.some.inj hget]
        exact (hr r' hr').2
      · rw [if_neg hkr] at hget
        have hk' := (List.mem_cons.mp hk).resolve_left hkr
        exact userByName_eq_none.mp (hname r' (List.mem_cons_of_mem r hr')) k u
          (userById_eq_some.mpr ⟨hk', hget⟩)
    exact ih hrows
      (h.userJoin (hid r List.mem_cons_self) (hname r List.mem_cons_self) r.2.secret) hid' hname'
      (htidy.userJoin _ _ _)

theorem loadGroups_sound {rows : List (ℕ × String)} (hrows : (rows.map Prod.fst).Nodup)
    (h : b.Sound) (hg : ∀ r ∈ rows, b.groups.get? r.1 = none) (hlt : ∀ r ∈ rows, r.1 < 32)
    (htidy : b.Tidy) :
    (rows.foldl (fun b r => b.groupJoin r.1 r.2) b).Sound ∧
      (rows.foldl (fun b r => b.groupJoin r.1 r.2) b).Tidy := by
  induction rows generalizing b with
  | nil => exact ⟨h, htidy⟩
  | cons r rows ih =>
    obtain ⟨hr, hrows⟩ := List.nodup_cons.mp hrows
    have hg' : ∀ r' ∈ rows, (b.groupJoin r.1 r.2).groups.get? r'.1 = none := by
      intro r' hr'
      have hne : r'.1 ≠ r.1 := fun heq => hr (heq ▸ List.mem_map_of_mem hr')
      rw [groupJoin, Ledger.get?_put, if_neg hne]
      exact hg r' (List.mem_cons_of_mem r hr')
    exact ih hrows (h.groupJoin (hg r List.mem_cons_self) (hlt r List.mem_cons_self) r.2) hg'
      (fun r' hr' => hlt r' (List.mem_cons_of_mem r hr')) (htidy.groupJoin _ _)

theorem loadGroupsPool_sound (h : b.Sound ∧ b.Tidy) (rows : List (ℕ × Int)) :
    (b.loadGroupsPool rows).Sound ∧ (b.loadGroupsPool rows).Tidy := by
  -- each row keeps both: it names a group and a user, or is passed over
  refine List.foldlRecOn (motive := fun b => Sound b ∧ Tidy b) rows _ h fun b h r _ => ?_
  split
  · rename_i group u hg hu
    exact ⟨h.1.groupAddUser hg hu, h.2.groupAddUser hg (userById_eq_some.mp hu).1⟩
  · exact h

theorem loadConsumers_sound (h : b.Sound ∧ b.Tidy) (rows : Ledger Int ConsumerRow) :
    (b.loadConsumers rows).Sound ∧ (b.loadConsumers rows).Tidy := by
  refine List.foldlRecOn (motive := fun b => Sound b ∧ Tidy b) rows.rows _ h fun b h r _ => ?_
  split
  · exact ⟨h.1.userAddConsumer _ _, h.2⟩
  · exact h

/-- What is loaded. -/
theorem load_sound (t : UserTables) : (load t).Sound ∧ (load t).Tidy := by
  have hrows : t.users.rows.Pairwise fun r r' => r.1 ≠ r'.1 ∧ r.2.name ≠ r'.2.name :=
    List.Pairwise.and (List.pairwise_map.mp t.users.nodup) (List.pairwise_map.mp t.nameUnique)
  have hempty : UserBase.empty.Tidy := fun g l hl => nomatch hl
  obtain ⟨husers, htidy, hgroups⟩ := loadUsers_sound hrows Sound.empty (fun _ _ => rfl)
    (fun _ _ => rfl) hempty
  refine loadConsumers_sound (loadGroupsPool_sound (loadGroups_sound t.groups.nodup husers
    (fun r _ => ?_) t.groupCheck htidy) _) _
  rw [hgroups]
  rfl

/-! ## Every run -/

theorem Sound.reach {P : UserBase → Env → UserCmd → Prop} {b₀ : UserBase} (h₀ : b₀.Sound)
    (h : Reaches P b₀ b) : b.Sound := by
  induction h with
  | refl => exact h₀
  | tail _ hstep ih =>
    obtain ⟨e, c, cmd, -, rfl⟩ := hstep
    rcases exec_effect cmd with heq | heffect
    · exact heq.symm ▸ ih
    · exact ih.effect heffect

theorem Tidy.reach {b₀ : UserBase} (h₀ : b₀.Sound) (ht₀ : b₀.Tidy)
    (h : Reaches (fun b e cmd => ¬ b.DropsMember e cmd) b₀ b) : b.Tidy := by
  induction h with
  | refl => exact ht₀
  | tail hreach hstep ih =>
    obtain ⟨e, c, cmd, hdrop, rfl⟩ := hstep
    rcases exec_effect cmd with heq | heffect
    · exact heq.symm ▸ ih
    · exact ih.effect (h₀.reach hreach) heffect hdrop

/-- **Membership is one relation.** In a run from what the database holds, in which no member
of a group is dropped, a user is in the table of a group if and only if it is registered and
has the bit of the group in its mask. -/
theorem group_membership (t : UserTables)
    (h : Reaches (fun b e cmd => ¬ b.DropsMember e cmd) (load t) b) :
    ∀ g group, b.groups.get? g = some group → ∀ id, id ∈ group.users ↔
      ∃ u, b.userById id = some u ∧ u.capMask.getLsbD g = true := by
  obtain ⟨hsound, htidy⟩ := load_sound t
  intro g group hg id
  have hroster := (hsound.reach h).roster
  rw [hroster.mem_iff (htidy.reach hsound h) (lists_of_get? hg)]
  constructor
  · rintro ⟨hid, f, hf, hflag⟩
    obtain ⟨u, hu, rfl⟩ := Option.map_eq_some_iff.mp hf
    exact ⟨u, userById_eq_some.mpr ⟨hid, hu⟩, hflag⟩
  · rintro ⟨u, hu, hflag⟩
    obtain ⟨hid, hget⟩ := userById_eq_some.mp hu
    exact ⟨hid, _, flags_of_get? hget, hflag⟩

/-- A member that is dropped stays where it was listed. -/
theorem DropsMember.not_tidy (h : b.Sound) {cmd : UserCmd} (hdrop : b.DropsMember e cmd) :
    ¬ (b.exec e c cmd).2.Tidy := by
  obtain ⟨id, u, hdrops, hmask⟩ := hdrop
  have hexec : b.exec e c cmd = (none, b.userRemove id) := hdrops.exec
  obtain ⟨name, rfl, hu, -, -⟩ := hdrops
  obtain ⟨g, hg⟩ := exists_bit hmask
  obtain ⟨-, hget⟩ := userById_eq_some.mp (userByName_some hu).1
  obtain ⟨-, l, hl, hmem⟩ := h.roster.flagged (flags_of_get? hget) hg
  -- a group whose bit the user had lists it, and it is registered no more
  intro htidy
  rw [hexec, userRemove_eq] at htidy
  exact absurd rfl (of_decide_eq_true (List.mem_filter.mp (htidy g l hl id hmem)).2)

/-! ## Two runs -/

/-- A user enters a group, leaves it and is dropped. -/
theorem group_membership_left :
    let env := fun id => (⟨0, id, fun _ => true⟩ : Env)
    let root : Caller := ⟨1#32, 1⟩
    let b₁ := ((load .initial).exec (env 2) root (.addUser "bob" none)).2
    let b₂ := (b₁.exec (env 0) root (.groupAddUser "user" "bob")).2
    let b₃ := (b₂.exec (env 0) root (.groupDelUser "user" "bob")).2
    let b₄ := (b₃.exec (env 0) root (.dropUser "bob")).2
    (b₂.groups.get? 20).map MbbGroup.users = some [2] ∧
      (∀ group, b₂.groups.get? 20 = some group → ∀ id, id ∈ group.users ↔
        ∃ u, b₂.userById id = some u ∧ u.capMask.getLsbD 20 = true) ∧
      (b₄.groups.get? 20).map MbbGroup.users = some [] ∧
      ∀ group, b₄.groups.get? 20 = some group → ∀ id, id ∈ group.users ↔
        ∃ u, b₄.userById id = some u ∧ u.capMask.getLsbD 20 = true := by
  intro env root b₁ b₂ b₃ b₄
  have hother : ∀ (b : UserBase) id {cmd}, (∀ name, cmd ≠ .dropUser name) →
      ¬ b.DropsMember (env id) cmd := fun b id cmd hcmd ⟨_, _, ⟨name, heq, _⟩, _⟩ => hcmd name heq
  have h₁ : Reaches (fun b e cmd => ¬ b.DropsMember e cmd) (load .initial) b₁ :=
    .single ⟨env 2, root, .addUser "bob" none, hother _ 2 (fun _ h => nomatch h), rfl⟩
  have h₂ := h₁.tail ⟨env 0, root, .groupAddUser "user" "bob",
    hother _ 0 (fun _ h => nomatch h), rfl⟩
  have h₃ := h₂.tail ⟨env 0, root, .groupDelUser "user" "bob",
    hother _ 0 (fun _ h => nomatch h), rfl⟩
  have hdrop : ¬ b₃.DropsMember (env 0) (.dropUser "bob") := by
    rintro ⟨id, u, ⟨name, heq, hu, -, -⟩, hmask⟩
    obtain rfl : "bob" = name := UserCmd.dropUser.inj heq
    have hzero : (b₃.userByName "bob").all (fun r => decide (r.2.capMask = 0#32)) = true := by
      decide +kernel
    rw [hu, Option.all_some, decide_eq_true_iff] at hzero
    exact hmask hzero
  have h₄ := h₃.tail ⟨env 0, root, .dropUser "bob", hdrop, rfl⟩
  exact ⟨by decide +kernel, group_membership .initial h₂ 20, by decide +kernel,
    group_membership .initial h₄ 20⟩

/-- A user enters a group and is dropped; the group still lists it. -/
theorem dropped_user_listed :
    let env := fun id => (⟨0, id, fun _ => true⟩ : Env)
    let root : Caller := ⟨1#32, 1⟩
    let b₁ := ((load .initial).exec (env 2) root (.addUser "bob" none)).2
    let b₂ := (b₁.exec (env 0) root (.groupAddUser "user" "bob")).2
    let r := b₂.exec (env 0) root (.dropUser "bob")
    Reaches (fun _ _ _ => True) (load .initial) r.2 ∧ r.1 = none ∧ r.2.userById 2 = none ∧
      (r.2.groups.get? 20).map MbbGroup.users = some [2] ∧
      ¬ ∀ g group, r.2.groups.get? g = some group → ∀ id, id ∈ group.users ↔
        ∃ u, r.2.userById id = some u ∧ u.capMask.getLsbD g = true := by
  intro env root b₁ b₂ r
  have hreach : Reaches (fun _ _ _ => True) (load .initial) r.2 :=
    ((Relation.ReflTransGen.single ⟨env 2, root, .addUser "bob" none, trivial, rfl⟩).tail
      ⟨env 0, root, .groupAddUser "user" "bob", trivial, rfl⟩).tail
      ⟨env 0, root, .dropUser "bob", trivial, rfl⟩
  have hgone : r.2.userById 2 = none := by decide +kernel
  have hlist : (r.2.groups.get? 20).map MbbGroup.users = some [2] := by decide +kernel
  refine ⟨hreach, by decide +kernel, hgone, hlist, fun h => ?_⟩
  obtain ⟨group, hgroup, husers⟩ := Option.map_eq_some_iff.mp hlist
  obtain ⟨u, hu, -⟩ := (h 20 group hgroup 2).mp (husers ▸ List.mem_singleton_self 2)
  rw [hgone] at hu
  cases hu

end UserBase

end Mbb
