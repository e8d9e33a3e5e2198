import Pcl.Lib.Cells
import Pcl.Str.Strtol

/-!
# Queues and stacks

`src/queue` and `src/stack`: singly linked items on the heap. The heap has the items of all queues and stacks, and the
objects themselves; a freed one that is still used, an object of the other type and a size that overflows have no result.
`NULL` is `none`, also among the values. A cleanup handler gets the values in the order of the answer; one that calls back
is left out.
-/

namespace Pcl
variable {β : Type}

/-- `struct queue_item` and `struct stack_item`. -/
abbrev LinkItem (β : Type) := ListNode (Option β)

/-- `pcl_queue_t`. -/
structure Queue where
  size : Int
  head : Option Nat
  tail : Option Nat
  cleanup : Bool

/-- `pcl_stack_t`. -/
structure Stack where
  head : Option Nat
  size : Int
  cleanup : Bool

inductive LinkObject where
  | queue (q : Queue)
  | stack (s : Stack)

structure LinkStore (β : Type) where
  items : Cells (LinkItem β)
  objects : Cells LinkObject

namespace LinkStore
variable (st : LinkStore β)

def queue (q : Nat) : Option Queue :=
  match st.objects.read q with
  | some (.queue q) => some q
  | _ => none

def stack (s : Nat) : Option Stack :=
  match st.objects.read s with
  | some (.stack s) => some s
  | _ => none

def setQueue (q : Nat) (queue : Queue) : LinkStore β := { st with objects := st.objects.write q (.queue queue) }

def setStack (s : Nat) (stack : Stack) : LinkStore β := { st with objects := st.objects.write s (.stack stack) }

end LinkStore

/-- The loop of `pcl_queue_clear` and of `pcl_stack_clear`, with a bound on the items: the values in order. -/
def clearItems : Nat → Option Nat → Cells (LinkItem β) → Option (List (Option β) × Cells (LinkItem β))
  | _, none, items => some ([], items)
  | 0, some _, _ => none
  | n + 1, some node, items =>
    (items.read node).bind fun item =>
      (clearItems n item.next (items.free node)).map fun (values, items) => (item.value :: values, items)

/-! ### Queues -/

/-- `pcl_queue`. -/
def pclQueue (cleanup : Bool) (st : LinkStore β) : Nat × LinkStore β :=
  (st.objects.length, { st with objects := st.objects.alloc (.queue ⟨0, none, none, cleanup⟩) })

/-- `pcl_queue_size`. -/
def queueSize (q : Option Nat) (st : LinkStore β) : Option Int :=
  match q with
  | none => some 0
  | some q => (st.queue q).map Queue.size

/-- `pcl_queue_empty`. -/
def queueEmpty (q : Option Nat) (st : LinkStore β) : Option Bool := (queueSize q st).map (· == 0)

/-- `pcl_queue_add`. -/
def queueAdd (q : Option Nat) (item : Option β) (st : LinkStore β) : Option (LinkStore β) :=
  match q with
  | none => some st
  | some q =>
    (st.queue q).bind fun queue =>
      let qitem := st.items.length
      let items := st.items.alloc ⟨none, item⟩
      if queue.size = intMax then none
      else
        let queue := { queue with size := queue.size + 1 }
        match queue.tail with
        | none => some ({ st with items }.setQueue q { queue with head := some qitem, tail := some qitem })
        | some tail =>
          (items.read tail).map fun last =>
            { st with items := items.write tail { last with next := some qitem } }.setQueue q
              { queue with tail := some qitem }

/-- `pcl_queue_peek`. -/
def queuePeek (q : Option Nat) (st : LinkStore β) : Option (Option β) :=
  (queueEmpty q st).bind fun empty =>
    if empty then some none
    else q.bind fun q => (st.queue q).bind fun queue => queue.head.bind fun head =>
      (st.items.read head).map ListNode.value

/-- `pcl_queue_remove`. -/
def queueRemove (q : Option Nat) (st : LinkStore β) : Option (Option β × LinkStore β) :=
  (queueEmpty q st).bind fun empty =>
    if empty then some (none, st)
    else
      q.bind fun q => (st.queue q).bind fun queue => queue.head.bind fun head => (st.items.read head).map fun qitem =>
        let queue := { queue with head := qitem.next }
        let queue := if queue.head.isNone then { queue with tail := none } else queue
        let queue := { queue with size := queue.size - 1 }
        (qitem.value, { st with items := st.items.free head }.setQueue q queue)

/-- `pcl_queue_clear`; the values that are cleaned up. -/
def queueClear (q : Option Nat) (st : LinkStore β) : Option (List (Option β) × LinkStore β) :=
  match q with
  | none => some ([], st)
  | some q =>
    (st.queue q).bind fun queue => (clearItems st.items.length queue.head st.items).map fun (values, items) =>
      (if queue.cleanup then values else [],
        { st with items }.setQueue q { queue with size := 0, head := none, tail := none })

/-- `pcl_queue_free`. -/
def queueFree (q : Option Nat) (st : LinkStore β) : Option (List (Option β) × LinkStore β) :=
  match q with
  | none => some ([], st)
  | some a => (queueClear q st).map fun (values, st) => (values, { st with objects := st.objects.free a })

/-! ### Stacks -/

/-- `pcl_stack`. -/
def pclStack (cleanup : Bool) (st : LinkStore β) : Nat × LinkStore β :=
  (st.objects.length, { st with objects := st.objects.alloc (.stack ⟨none, 0, cleanup⟩) })

/-- `pcl_stack_size`. -/
def stackSize (s : Option Nat) (st : LinkStore β) : Option Int :=
  match s with
  | none => some 0
  | some s => (st.stack s).map Stack.size

/-- `pcl_stack_empty`. -/
def stackEmpty (s : Option Nat) (st : LinkStore β) : Option Bool := (stackSize s st).map (· == 0)

/-- `pcl_stack_push`. -/
def stackPush (s : Option Nat) (item : Option β) (st : LinkStore β) : Option (LinkStore β) :=
  match s with
  | none => some st
  | some s =>
    (st.stack s).bind fun stack =>
      let sitem := st.items.length
      if stack.size = intMax then none
      else
        some ({ st with items := st.items.alloc ⟨stack.head, item⟩ }.setStack s
          { stack with size := stack.size + 1, head := some sitem })

/-- `pcl_stack_peek`. -/
def stackPeek (s : Option Nat) (st : LinkStore β) : Option (Option β) :=
  (stackEmpty s st).bind fun empty =>
    if empty then some none
    else s.bind fun s => (st.stack s).bind fun stack => stack.head.bind fun head =>
      (st.items.read head).map ListNode.value

/-- `pcl_stack_pop`. -/
def stackPop (s : Option Nat) (st : LinkStore β) : Option (Option β × LinkStore β) :=
  (stackEmpty s st).bind fun empty =>
    if empty then some (none, st)
    else
      s.bind fun s => (st.stack s).bind fun stack => stack.head.bind fun head => (st.items.read head).map fun sitem =>
        (sitem.value, { st with items := st.items.free head }.setStack s
          { stack with head := sitem.next, size := stack.size - 1 })

/-- `pcl_stack_clear`; the values that are cleaned up. -/
def stackClear (s : Option Nat) (st : LinkStore β) : Option (List (Option β) × LinkStore β) :=
  match s with
  | none => some ([], st)
  | some s =>
    (st.stack s).bind fun stack => (clearItems st.items.length stack.head st.items).map fun (values, items) =>
      (if stack.cleanup then values else [], { st with items }.setStack s { stack with size := 0, head := none })

/-- `pcl_stack_free`. -/
def stackFree (s : Option Nat) (st : LinkStore β) : Option (List (Option β) × LinkStore β) :=
  match s with
  | none => some ([], st)
  | some a => (stackClear s st).map fun (values, st) => (values, { st with objects := st.objects.free a })

end Pcl
