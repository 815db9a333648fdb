import TurboServe.Core.Types
import TurboServe.Lib.MinBy

/-!
# The waiting queue

`_WaitQueue` of `engine/core/scheduler.py`, under either admission policy.
`fcfs` is one FIFO. `tenant_fair` keeps one deque and one virtual time per
tenant and serves the tenant with the smallest virtual time.

A queued sequence is its identity; the tenant the source reads off the
sequence is passed next to it. The dict of deques is an association list in
insertion order, which is what the iteration of the source follows.
-/

namespace TurboServe.Core

structure WaitQueue (W : Type) where
  tenantFair : Bool
  weights : List (String × W)
  fifo : List SeqId
  queues : List (String × List SeqId)
  vtime : String → Option W
  now : W

namespace WaitQueue

variable {W : Type} [VirtualTime W]

def new (tenantFair : Bool) (weights : List (String × W)) : WaitQueue W where
  tenantFair := tenantFair
  weights := weights
  fifo := []
  queues := []
  vtime := fun _ => none
  now := VirtualTime.zero

variable (q : WaitQueue W)

/-! ## §1  The queue's own functions -/

/-- Configured weight of a tenant; unconfigured tenants get `1.0`. -/
def weightOf (tenant : String) : W :=
  (q.weights.lookup tenant).getD VirtualTime.defaultWeight

/-- `self._queues[tenant] = ids` on a present key. -/
def setQueue (queues : List (String × List SeqId)) (tenant : String)
    (ids : List SeqId) : List (String × List SeqId) :=
  queues.map fun p => if p.1 = tenant then (p.1, ids) else p

/-- `del self._queues[tenant]`. -/
def delQueue (queues : List (String × List SeqId)) (tenant : String) :
    List (String × List SeqId) :=
  queues.filter fun p => decide (p.1 ≠ tenant)

/-- Store a tenant's remaining deque, dropping the key once it is empty. -/
def storeQueue (queues : List (String × List SeqId)) (tenant : String)
    (ids : List SeqId) : List (String × List SeqId) :=
  if ids = [] then delQueue queues tenant else setQueue queues tenant ids

/-- Enqueue at the back; a tenant that becomes backlogged again restarts no
earlier than the virtual clock. -/
def push (id : SeqId) (tenant : String) : WaitQueue W :=
  if q.tenantFair then
    match q.queues.lookup tenant with
    | none =>
        { q with
          queues := q.queues ++ [(tenant, [id])]
          vtime := Function.update q.vtime tenant
            (some (VirtualTime.max ((q.vtime tenant).getD VirtualTime.zero) q.now)) }
    | some ids => { q with queues := setQueue q.queues tenant (ids ++ [id]) }
  else { q with fifo := q.fifo ++ [id] }

/-- The key order of `_next_tenant`: virtual time, then tenant id. -/
def keyLt (t t' : String) : Bool :=
  let v := (q.vtime t).getD VirtualTime.zero
  let v' := (q.vtime t').getD VirtualTime.zero
  if VirtualTime.eq v v' then decide (t < t') else VirtualTime.lt v v'

def nextTenant : Option String :=
  Lib.minBy q.keyLt (q.queues.map Prod.fst)

/-- The sequence that would be admitted next, without admitting it. -/
def peek : Except Fault (Option SeqId) :=
  if q.tenantFair then
    match q.nextTenant with
    | none => .ok none
    | some tenant =>
        match q.queues.lookup tenant with
        | some (id :: _) => .ok (some id)
        | _ => .error .popEmpty
  else .ok q.fifo.head?

/-- Admit the next sequence, charging its tenant's virtual time. -/
def pop : Except Fault (SeqId × WaitQueue W) :=
  if q.tenantFair then
    match q.nextTenant with
    | none => .error .popEmpty
    | some tenant =>
        match q.queues.lookup tenant, q.vtime tenant with
        | some (id :: rest), some v =>
            let v' := VirtualTime.charge v (q.weightOf tenant)
            .ok (id, { q with
              queues := storeQueue q.queues tenant rest
              vtime := Function.update q.vtime tenant (some v')
              now := v' })
        | some (_ :: _), none => .error (.noVirtualTime tenant)
        | _, _ => .error .popEmpty
  else
    match q.fifo with
    | [] => .error .popEmpty
    | id :: rest => .ok (id, { q with fifo := rest })

/-- Drop a specific sequence (an abort while it was queued). -/
def remove (id : SeqId) (tenant : String) : Bool × WaitQueue W :=
  if q.tenantFair then
    match q.queues.lookup tenant with
    | none => (false, q)
    | some ids =>
        if id ∈ ids then
          (true, { q with queues := storeQueue q.queues tenant (ids.erase id) })
        else (false, q)
  else if id ∈ q.fifo then (true, { q with fifo := q.fifo.erase id })
  else (false, q)

/-- Empty every queue and forget the virtual times. -/
def clear : WaitQueue W :=
  { q with fifo := [], queues := [], vtime := fun _ => none,
           now := VirtualTime.zero }

/-- `__iter__`: every queued sequence, tenant by tenant. -/
def toList : List SeqId :=
  if q.tenantFair then q.queues.flatMap Prod.snd else q.fifo

end WaitQueue

end TurboServe.Core
