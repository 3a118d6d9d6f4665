import Mbb.Auth
import Mbb.Privilege

/-!
# Sessions and keys

Sessions authenticate by one of three methods: `plain`, `salt` and `key`. The first two look
the user up by name among the registered ones. A key of `mbbd/mbbauthkeys.c` holds its user
by itself and lives for a time that every use renews; nothing takes it away when the user is
dropped.
-/

namespace Mbb

/-- `struct key_data` -/
structure KeyData : Type where
  /-- user -/
  user : Int
  /-- peer of the session that got the key -/
  peer : String
  /-- when the timer was started, in microseconds -/
  timer : ℕ
deriving DecidableEq

/-- Users and groups, sessions and keys. -/
structure AuthServer : Type where
  /-- users and groups -/
  base : UserBase
  /-- sessions -/
  sessions : Ledger ℕ Session
  /-- keys -/
  keys : Ledger String KeyData
  /-- the monotonic clock, in microseconds -/
  now : ℕ

/-- What is set up once: `authkey_lifetime` in seconds, and the algorithm of `auth_salt`. -/
structure AuthConfig : Type where
  /-- `authkey_lifetime` -/
  lifetime : ℕ
  /-- `checksum_type` -/
  checksum : Checksum

namespace AuthServer

variable (s : AuthServer) (cfg : AuthConfig)

/-! ## Keys

The table of keys is cleaned before each use of it: keys that have not been used for the lifetime
are gone by then.
-/

/-- `auth_key_remove`: the timer of the key has run for its lifetime. -/
def authKeyRemove (kd : KeyData) : Bool := decide (cfg.lifetime * 1000000 ≤ s.now - kd.timer)

/-- `auth_key_ht_cleanup` -/
def htCleanup : AuthServer :=
  { s with keys := s.keys.drop fun key => (s.keys.get? key).any (s.authKeyRemove cfg) }

/-- `mbb_auth_key_get_user`, in a session with this peer. -/
def authKeyGetUser (peer key : String) : Option Int × AuthServer :=
  let s := s.htCleanup cfg
  match s.keys.get? key with
  | none => (none, s)
  | some kd =>
    if peer = kd.peer then
      (some kd.user, { s with keys := s.keys.modify key fun kd => { kd with timer := s.now } })
    else (none, s)

/-- `get_auth_key`, once it has been found: `key` is the one that the loop over `gen_key` ends
with, and is not in the table. -/
def getAuthKey (user : Int) (peer key : String) : AuthServer :=
  let s := s.htCleanup cfg
  -- the loop draws keys until it has one that is not in the table
  if s.keys.get? key = none then { s with keys := s.keys.put key ⟨user, peer, s.now⟩ } else s

/-- `drop_auth_key`, once it has been found. -/
def dropAuthKey (key : String) : Option MbbMsg × AuthServer :=
  let s := s.htCleanup cfg
  match s.keys.get? key with
  | none => (some (.error "unknown key"), s)
  | some _ => (none, { s with keys := s.keys.drop fun k => decide (k = key) })

/-! ## Sessions

What a session may call depends on its user, who is looked up by id each time.
-/

/-- `mbb_auth`: the user, the server and the session. -/
def mbbAuth (ss : Session) (newSalt login : String) (secret type : Option String) :
    Option Int × AuthServer × Session :=
  -- the methods that the server and its module register; any other type finds none
  let type := type.getD "plain"
  if type = "plain" then (s.base.mbbAuthPlain login secret, s, ss)
  else if type = "key" then
    let r := s.authKeyGetUser cfg ss.peer login
    (r.1, r.2, ss)
  else if type = "salt" then
    let r := s.base.authSalt cfg.checksum ss newSalt login secret
    (r.1, s, r.2.1)
  else (none, s, ss)

/-- `mbb_session_auth`: the user, if it succeeds. -/
def mbbSessionAuth (sid : ℕ) (newSalt login : String) (secret type : Option String) :
    Option Int × AuthServer :=
  match s.sessions.get? sid with
  | none => (none, s)
  | some ss =>
    let r := s.mbbAuth cfg ss newSalt login secret type
    let ss := match r.1 with
      | none => r.2.2
      | some user => { r.2.2 with user := some user }
    (r.1, { r.2.1 with sessions := r.2.1.sessions.modify sid fun _ => ss })

/-- `mbb_session_new` -/
def mbbSessionNew (sid : ℕ) (peer : String) (msgQueue : Bool) : AuthServer :=
  { s with sessions := s.sessions.put sid ⟨none, peer, msgQueue, none⟩ }

/-- `mbb_session_quit` -/
def mbbSessionQuit (sid : ℕ) : AuthServer :=
  { s with sessions := s.sessions.drop fun k => decide (k = sid) }

/-- The user of a session. -/
def userOf (sid : ℕ) : Option Int := (s.sessions.get? sid).bind Session.user

/-- A command on users and groups, called in a session. -/
def userCall (sid : ℕ) (e : Env) (cmd : UserCmd) : Option (Option MbbMsg) × AuthServer :=
  let r := s.base.funcCall e (s.userOf sid) cmd
  (r.1, { s with base := r.2 })

/-- `mbb-get-auth-key`, called in a session. -/
def getAuthKeyCall (sid : ℕ) (key : String) : AuthServer :=
  match s.sessions.get? sid with
  | none => s
  | some ss =>
    match ss.user with
    | none => s
    | some user =>
      if s.base.funcSearch (some user) mbbCapAll then s.getAuthKey cfg user ss.peer key else s

/-- `mbb-drop-auth-key`, called in a session. -/
def dropAuthKeyCall (sid : ℕ) (key : String) : Option (Option MbbMsg) × AuthServer :=
  if s.base.funcSearch (s.userOf sid) (capOf mbbCapWheelId) then
    let r := s.dropAuthKey cfg key
    (some r.1, r.2)
  else (none, s)

end AuthServer

/-! ## Runs

Events are commands on users and groups, new sessions, and calls about keys, at any times.
-/

/-- What can happen. -/
inductive AuthEvent : Type where
  /-- a session starts -/
  | sessionNew (sid : ℕ) (peer : String) (msgQueue : Bool)
  /-- a session ends -/
  | sessionQuit (sid : ℕ)
  /-- a session authenticates, or tries to -/
  | auth (sid : ℕ) (newSalt login : String) (secret type : Option String)
  /-- a command on users and groups -/
  | user (sid : ℕ) (e : Env) (cmd : UserCmd)
  /-- `mbb-get-auth-key` -/
  | getAuthKey (sid : ℕ) (key : String)
  /-- `mbb-drop-auth-key` -/
  | dropAuthKey (sid : ℕ) (key : String)
  /-- time passes -/
  | pass (time : ℕ)

namespace AuthServer

/-- One event. -/
def exec (s : AuthServer) (cfg : AuthConfig) : AuthEvent → AuthServer
  | .sessionNew sid peer msgQueue => s.mbbSessionNew sid peer msgQueue
  | .sessionQuit sid => s.mbbSessionQuit sid
  | .auth sid newSalt login secret type => (s.mbbSessionAuth cfg sid newSalt login secret type).2
  | .user sid e cmd => (s.userCall sid e cmd).2
  | .getAuthKey sid key => s.getAuthKeyCall cfg sid key
  | .dropAuthKey sid key => (s.dropAuthKeyCall cfg sid key).2
  | .pass time => { s with now := s.now + time }

/-- A step of a run in which every event is in `P`. -/
def Step (cfg : AuthConfig) (P : AuthServer → AuthEvent → Prop) (s s' : AuthServer) : Prop :=
  ∃ ev, P s ev ∧ s.exec cfg ev = s'

/-- The states of the runs from `s` in which every event is in `P`. -/
def Reaches (cfg : AuthConfig) (P : AuthServer → AuthEvent → Prop) (s s' : AuthServer) : Prop :=
  Relation.ReflTransGen (Step cfg P) s s'

/-- One event after another. -/
def run (s : AuthServer) (cfg : AuthConfig) (evs : List AuthEvent) : AuthServer :=
  evs.foldl (fun s ev => s.exec cfg ev) s

theorem reaches_run {cfg : AuthConfig} {P : AuthServer → AuthEvent → Prop} {evs : List AuthEvent}
    (h : ∀ ev ∈ evs, ∀ s, P s ev) (s : AuthServer) : Reaches cfg P s (s.run cfg evs) := by
  induction evs generalizing s with
  | nil => exact .refl
  | cons ev evs ih =>
    have hrest := ih (fun ev' hev' => h ev' (List.mem_cons_of_mem ev hev')) (s.exec cfg ev)
    exact .head ⟨ev, h ev List.mem_cons_self s, rfl⟩ hrest

/-- The server when it starts. -/
def init (t : UserTables) (now : ℕ) : AuthServer := ⟨.load t, .empty, .empty, now⟩

end AuthServer

end Mbb
