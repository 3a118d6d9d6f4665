import Mbb.Time

/-!
# Gateway links (`mbbd/mbbgateway.c`)

A gateway keeps, for each of its interfaces, the links of that interface in the order of
their times.
-/

namespace Mbb

/-- `struct mbb_gwlink` -/
structure MbbGwLink : Type where
  /-- id in the database -/
  id : Int
  /-- interface -/
  link : ℕ
  /-- start -/
  start : Int
  /-- end -/
  stop : Int
deriving DecidableEq

/-- `struct mbb_gateway` -/
structure MbbGateway : Type where
  /-- id in the database -/
  id : Int
  /-- address -/
  addr : ℕ
  /-- queues by interface; `none` is `NULL` -/
  ht : Option (List (ℕ × List MbbGwLink))

/-- `mbb_gateway_get_by_addr` -/
def mbbGatewayGetByAddr (gws : List MbbGateway) (addr : ℕ) : Option MbbGateway :=
  gws.find? fun gw => decide (gw.addr = addr)

/-- The loop of `mbb_gateway_get_link`. -/
def gwQueueGetLink (t : Int) : List MbbGwLink → Option MbbGwLink
  | [] => none
  | gl :: next =>
    let tmp := mbbTimeRcmp t gl.start gl.stop
    if tmp = 0 then some gl else if tmp < 0 then none else gwQueueGetLink t next

/-- `mbb_gateway_get_link` -/
def mbbGatewayGetLink (gw : MbbGateway) (link : ℕ) (t : Int) : Option MbbGwLink :=
  match gw.ht with
  | none => none
  | some ht =>
    match ht.lookup link with
    | none => none
    | some queue => gwQueueGetLink t queue

/-- `mbb_gateway_find_link` -/
def mbbGatewayFindLink (gws : List MbbGateway) (ip link : ℕ) (t : Int) : Option MbbGwLink :=
  match mbbGatewayGetByAddr gws ip with
  | none => none
  | some gw => mbbGatewayGetLink gw link t

/-! ## Changing the queues

A new link is put where the loop stops, if it does not overlap the neighbour; a link whose time
changes is taken out and inserted again, or put back.
-/

namespace MbbGateway

/-- The queue of an interface. -/
def queue (gw : MbbGateway) (link : ℕ) : Option (List MbbGwLink) :=
  gw.ht.bind fun ht => ht.lookup link

/-- The queue of an interface after a change to it. -/
def setQueue (gw : MbbGateway) (link : ℕ) (q : List MbbGwLink) : MbbGateway :=
  { gw with ht := gw.ht.map fun ht => ht.map fun e => if e.1 = link then (link, q) else e }

end MbbGateway

/-- The loop of `mbb_gateway_can_add`; a link that is in the queue is passed over unless
`create` is set. -/
def gwQueueCanAdd (gl : MbbGwLink) (create : Bool) : List MbbGwLink → Bool
  | [] => true
  | cur :: rest =>
    if create = false ∧ cur.id = gl.id then gwQueueCanAdd gl create rest
    else if mbbTimeEbcmp gl.stop cur.start < 0 then true
    else if mbbTimeBecmp gl.start cur.stop > 0 then gwQueueCanAdd gl create rest
    else false

/-- `mbb_gateway_can_add` -/
def mbbGatewayCanAdd (gw : MbbGateway) (gl : MbbGwLink) (create : Bool) : Bool :=
  match gw.queue gl.link with
  | none => true
  | some q => gwQueueCanAdd gl create q

/-- `gw_queue_insert_gl`: the queue with the link, or `none` for a collision. -/
def gwQueueInsertGl (gl : MbbGwLink) : List MbbGwLink → Option (List MbbGwLink)
  | [] => some [gl]
  | cur :: rest =>
    if mbbTimeBecmp gl.start cur.stop > 0 then (gwQueueInsertGl gl rest).map (cur :: ·)
    else if mbbTimeEbcmp gl.stop cur.start < 0 then some (gl :: cur :: rest)
    else none

/-- `list->next` of a link in a queue. -/
def gwQueueNext (id : Int) : List MbbGwLink → Option MbbGwLink
  | [] => none
  | cur :: rest => if cur.id = id then rest.head? else gwQueueNext id rest

/-- `g_queue_push_tail` for no neighbour, else `g_queue_insert_before`. -/
def gwQueuePutBack (gl : MbbGwLink) : Option MbbGwLink → List MbbGwLink → List MbbGwLink
  | none, q => q ++ [gl]
  | some _, [] => [gl]
  | some next, cur :: rest =>
    if cur.id = next.id then gl :: cur :: rest else cur :: gwQueuePutBack gl (some next) rest

/-- The queue without a link. -/
def gwQueueDelete (id : Int) (q : List MbbGwLink) : List MbbGwLink :=
  q.eraseP fun cur => decide (cur.id = id)

/-- `mbb_gateway_reorder_link` -/
def mbbGatewayReorderLink (gw : MbbGateway) (gl : MbbGwLink) : Bool × MbbGateway :=
  match gw.queue gl.link with
  | none => (false, gw)
  | some q =>
    if q.all fun cur => decide (cur.id ≠ gl.id) then (false, gw)
    else if q.length = 1 then (true, gw)
    else
      let next := gwQueueNext gl.id q
      let rest := gwQueueDelete gl.id q
      match gwQueueInsertGl gl rest with
      | some q => (true, gw.setQueue gl.link q)
      | none => (false, gw.setQueue gl.link (gwQueuePutBack gl next rest))

/-- `mbb_gateway_add_link` -/
def mbbGatewayAddLink (gw : MbbGateway) (gl : MbbGwLink) : Bool × MbbGateway :=
  match gw.ht with
  | none => (true, { gw with ht := some [(gl.link, [gl])] })
  | some ht =>
    match ht.lookup gl.link with
    | none => (true, { gw with ht := some ((gl.link, [gl]) :: ht) })
    | some q =>
      match gwQueueInsertGl gl q with
      | none => (false, gw)
      | some q => (true, gw.setQueue gl.link q)

/-- `mbb_gateway_del_link`: an empty queue is removed, and the table with its last queue. -/
def mbbGatewayDelLink (gw : MbbGateway) (gl : MbbGwLink) : MbbGateway :=
  match gw.ht with
  | none => gw
  | some ht =>
    match ht.lookup gl.link with
    | none => gw
    | some q =>
      if q.all fun cur => decide (cur.id ≠ gl.id) then gw
      else
        match gwQueueDelete gl.id q with
        | [] =>
          match ht.filter fun e => decide (e.1 ≠ gl.link) with
          | [] => { gw with ht := none }
          | ht => { gw with ht := some ht }
        | q => gw.setQueue gl.link q

/-- A link is an object: its times change in the queue it is in. -/
def MbbGateway.writeLink (gw : MbbGateway) (gl : MbbGwLink) : MbbGateway :=
  match gw.queue gl.link with
  | none => gw
  | some q => gw.setQueue gl.link (q.map fun cur => if cur.id = gl.id then gl else cur)

/-- The part of `gwlink_mod_time` between the checks and the database: the times are
swapped, the link is reordered, and the times are swapped back if that fails. -/
def gwlinkSwapTime (gw : MbbGateway) (gl : MbbGwLink) (start stop : Int) :
    Bool × MbbGateway × MbbGwLink :=
  let gl' := { gl with start := start, stop := stop }
  match mbbGatewayReorderLink (gw.writeLink gl') gl' with
  | (true, gw) => (true, gw, gl')
  | (false, gw) => (false, gw.writeLink gl, gl)

end Mbb
