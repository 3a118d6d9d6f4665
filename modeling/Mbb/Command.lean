import Mbb.Time

/-!
# Answers and time arguments of commands (`mbbd/mbbxmlmsg.c`, `mbbd/mbbtime.c`)
-/

namespace Mbb

/-- `mbb_msg_t`: the errors of the commands modelled, with their arguments. -/
inductive MbbMsg : Type where
  /-- `MBB_MSG_TIME_MISSED` -/
  | timeMissed
  /-- `MBB_MSG_UNKNOWN_INET` -/
  | unknownInet
  /-- `MBB_MSG_UNKNOWN_UNIT` -/
  | unknownUnit
  /-- `MBB_MSG_PSTART_MORE_END` -/
  | pstartMoreEnd
  /-- `MBB_MSG_PEND_LESS_START` -/
  | pendLessStart
  /-- `MBB_MSG_INVALID_TIME_ORDER` -/
  | invalidTimeOrder
  /-- `MBB_MSG_UNIT_FREEZED` -/
  | unitFreezed (name : String)
  /-- `MBB_MSG_NAME_EXISTS` -/
  | nameExists (name : String)
  /-- `MBB_MSG_UNKNOWN_CONSUMER` -/
  | unknownConsumer
  /-- `MBB_MSG_HAS_CHILDS` -/
  | hasChilds
  /-- `MBB_MSG_UNPOSSIBLE` -/
  | unpossible
  /-- `MBB_MSG_ORPHAN` -/
  | orphan
  /-- `MBB_MSG_TIME_ORDER` -/
  | timeOrder
  /-- `MBB_MSG_TIME_COLLISION` -/
  | timeCollision
  /-- `MBB_MSG_UNKNOWN_USER` -/
  | unknownUser
  /-- `MBB_MSG_UNIT_HAS_CONSUMER` -/
  | unitHasConsumer
  /-- `MBB_MSG_CONSUMER_FREEZED` -/
  | consumerFreezed (name : String)
  /-- `MBB_MSG_UNKNOWN_GATEWAY` -/
  | unknownGateway
  /-- `MBB_MSG_UNKNOWN_OPERATOR` -/
  | unknownOperator
  /-- `MBB_MSG_GW_HAS_LINK` -/
  | gwHasLink
  /-- `MBB_MSG_UNKNOWN_GWLINK` -/
  | unknownGwlink
  /-- `MBB_MSG_UNKNOWN_GROUP` -/
  | unknownGroup
  /-- `MBB_MSG_GROUP_HAS_USER` -/
  | groupHasUser
  /-- `MBB_MSG_GROUP_HASNOT_USER` -/
  | groupHasnotUser
  /-- `MBB_MSG_SELF_NOT_EXISTS` -/
  | selfNotExists
  /-- `MBB_MSG_INVALID_PASS` -/
  | invalidPass
  /-- `MBB_MSG_NEED_PASS` -/
  | needPass
  /-- `MBB_MSG_ROOT_ONLY` -/
  | rootOnly
  /-- `mbb_xml_msg_error` -/
  | error (text : String)
  /-- `mbb_xml_msg_from_error`: the database failed -/
  | fromError
deriving DecidableEq

/-- What a command gets from outside. -/
structure Env : Type where
  /-- `time` -/
  now : Int
  /-- the id of the row it inserts -/
  id : Int
  /-- outcomes of its calls to the database, in their order -/
  db : ℕ → Bool

/-- `MBB_TIME_UNSET` -/
def mbbTimeUnset : Int := -2

/-- `MBB_TIME_PARENT` -/
def mbbTimeParent : Int := -1

/-- `mbb_time_pbecmp` -/
def mbbTimePbecmp (ta tb pta ptb : Int) : Int :=
  mbbTimeBecmp (if ta = mbbTimeParent then pta else ta) (if tb = mbbTimeParent then ptb else tb)

/-- `mbb_time_test_order` -/
def mbbTimeTestOrder (a b pa pb : Int) : Option MbbMsg :=
  if a < 0 ∧ b < 0 then none
  else if a < 0 then if mbbTimeBecmp pa b > 0 then some .pstartMoreEnd else none
  else if b < 0 then if mbbTimeBecmp a pb > 0 then some .pendLessStart else none
  else if mbbTimeBecmp a b > 0 then some .invalidTimeOrder
  else none

/-- A time, or another one in place of a negative. -/
def timeOr (t other : Int) : Int := if 0 ≤ t then t else other

theorem timeOr_of_nonneg {t : Int} (h : 0 ≤ t) (other : Int) : timeOr t other = t := if_pos h

theorem timeOr_of_neg {t : Int} (h : t < 0) (other : Int) : timeOr t other = other :=
  if_neg (not_le.mpr h)

theorem timeOr_nonneg {t other : Int} (h : 0 ≤ other) : 0 ≤ timeOr t other := by
  rw [timeOr]
  split <;> assumption

/-- The test of `mbb_time_test_order` is that of the effective times, unless both are
those of the parent. -/
theorem mbbTimeTestOrder_eq_none {a b pa pb : Int} :
    mbbTimeTestOrder a b pa pb = none ↔
      (a < 0 ∧ b < 0) ∨ mbbTimeBecmp (timeOr a pa) (timeOr b pb) ≤ 0 := by
  rw [mbbTimeTestOrder, timeOr, timeOr]
  by_cases ha : a < 0
  · have ha' : ¬ 0 ≤ a := by omega
    by_cases hb : b < 0
    · simp [ha, hb]
    · have hb' : 0 ≤ b := by omega
      simp [ha, hb, ha', hb']
  · have ha' : 0 ≤ a := by omega
    by_cases hb : b < 0
    · have hb' : ¬ 0 ≤ b := by omega
      simp [ha, hb, ha', hb']
    · have hb' : 0 ≤ b := by omega
      simp [ha, hb, ha', hb']

/-- What `gwlink_mod_time` and `consumer_mod_time` refuse before they look anything up. -/
def modTimeArgs (start stop : Int) : Option MbbMsg :=
  if start = mbbTimeUnset ∧ stop = mbbTimeUnset then some .timeMissed
  else if start = mbbTimeParent ∨ stop = mbbTimeParent then some .orphan
  else none

end Mbb
