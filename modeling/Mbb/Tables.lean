import Mbb.Keys
import Mbb.Stat

/-!
# The tables of the database (`sql/table.sql`)

Rows are known by their primary key.
-/

namespace Mbb

/-- A row of `consumers`. -/
structure ConsumerRow : Type where
  /-- `consumer_name` -/
  name : String
  /-- `user_id` -/
  userId : Option Int
  /-- `time_start` -/
  timeStart : Option Int
  /-- `time_end` -/
  timeEnd : Option Int
deriving DecidableEq

/-- A row of `units`. -/
structure UnitRow : Type where
  /-- `unit_name` -/
  name : String
  /-- `consumer_id` -/
  consumerId : Option Int
  /-- `time_start` -/
  timeStart : Option Int
  /-- `time_end` -/
  timeEnd : Option Int
  /-- `local` -/
  isLocal : Bool
deriving DecidableEq

/-- A row of `unit_ip_pool`. -/
structure InetRow : Type where
  /-- `unit_id` -/
  unitId : Int
  /-- `inet_addr` -/
  inet : Inet
  /-- `inet_flag` -/
  flag : Bool
  /-- `time_start` -/
  timeStart : Option Int
  /-- `time_end` -/
  timeEnd : Option Int
  /-- `nice` -/
  nice : Int

/-- A row of `gwlinks`. -/
structure GwlinkRow : Type where
  /-- `oper_id` -/
  operId : Int
  /-- `gw_id` -/
  gwId : Int
  /-- `link` -/
  link : Int
  /-- `time_start` -/
  timeStart : Option Int
  /-- `time_end` -/
  timeEnd : Option Int
deriving DecidableEq

/-- What the query format makes of a time: a negative one is `NULL`. -/
def sqlTime (t : Int) : Option Int := if 0 ≤ t then some t else none

end Mbb
