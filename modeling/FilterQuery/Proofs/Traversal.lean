import FilterQuery.Node.Visit
import Mathlib.Data.List.Basic

/-!
A walk as a run over a list. One table says which nodes lie right below a node and in which order.
It gives the listing of a tree: its calls in pre-order, each with the number of calls below it. A
walk makes the calls of the listing one after the other. Where one is answered by skipping, those
below it are left out; where one is answered by stopping, the run ends there.
-/
namespace FilterQuery

/-- The call that a visitor gets at a node. -/
def Call.ofNode : Node → Call
  | .value v => .value v
  | .operation op => .operation op
  | .identifier name => .identifier name
  | .reference r => .reference r
  | .compare l op r => .compare l op r
  | .logic l op r => .logic l op r
  | .predicate l op => .predicate l op
  | .not inner => .not inner
  | .parentheses inner => .parentheses inner
  | .between l op low high => .between l op low high
  | .function name params => .function name params

namespace Node

/-- What lies right below a node. Here an operator and an element of an array are nodes too. -/
def parts : Node → List Node
  | compare l op r | logic l op r => [l, operation op, r]
  | predicate l op => [l, operation op]
  | between l op low high => [l, operation op, low, high]
  | function _ params => params
  | not inner | parentheses inner => [inner]
  | value (.array es) => es.map value
  | value _ | operation _ | identifier _ | reference _ => []

theorem sizeOf_pos (n : Node) : 0 < sizeOf n := by
  cases n <;> exact Nat.pos_of_ne_zero (by simp)

theorem sizeOf_lt_of_mem_parts {n part : Node} (h : part ∈ n.parts) : sizeOf part < sizeOf n := by
  cases n with
  | value v =>
    cases v with
    | array es =>
      obtain ⟨e, he, rfl⟩ := List.mem_map.mp h
      have hlt := List.sizeOf_lt_of_mem he
      simp only [value.sizeOf_spec, Value.array.sizeOf_spec]
      omega
    | int | decimal | bool | string | null => cases h
  | operation op | identifier name | reference r => cases h
  | compare l op r | logic l op r =>
    have hl := sizeOf_pos l
    simp only [parts, List.mem_cons, List.not_mem_nil, or_false] at h
    rcases h with rfl | rfl | rfl <;> simp <;> omega
  | predicate l op =>
    have hl := sizeOf_pos l
    simp only [parts, List.mem_cons, List.not_mem_nil, or_false] at h
    rcases h with rfl | rfl <;> simp <;> omega
  | not inner | parentheses inner =>
    obtain rfl := List.mem_singleton.mp h
    simp
  | between l op low high =>
    have hl := sizeOf_pos l
    simp only [parts, List.mem_cons, List.not_mem_nil, or_false] at h
    rcases h with rfl | rfl | rfl | rfl <;> simp <;> omega
  | function name params =>
    have hlt : sizeOf part < sizeOf params := List.sizeOf_lt_of_mem h
    simp only [function.sizeOf_spec]
    omega

/-- The calls of a tree in pre-order, each with the number of calls below it. -/
def listing (n : Node) : List (Call × Nat) :=
  let below := n.parts.attach.flatMap fun part => part.val.listing
  (.ofNode n, below.length) :: below
termination_by sizeOf n
decreasing_by exact sizeOf_lt_of_mem_parts part.property

theorem listing_eq (n : Node) :
    n.listing = (.ofNode n, (n.parts.flatMap listing).length) :: n.parts.flatMap listing := by
  rw [listing]
  simp

end Node

namespace Walk

variable {σ ε : Type}

/-- Makes the calls of a listing in their order, except for those below a call that is answered by
skipping, until one is answered by stopping. -/
def run (v : Visitor σ ε) : List (Call × Nat) → Walk σ ε
  | [] => done
  | (c, below) :: calls => fun s =>
    match v c s with
    | (.descend, s') => run v calls s'
    | (.skip, s') => run v (calls.drop below) s'
    | (.stop e, s') => (some e, s')
termination_by calls => calls.length

theorem andThen_done (w : Walk σ ε) : w.andThen done = w := by
  funext s
  rw [andThen]
  rcases w s with ⟨_ | e, s'⟩ <;> rfl

theorem andThen_assoc (w w' w'' : Walk σ ε) :
    (w.andThen w').andThen w'' = w.andThen (w'.andThen w'') := by
  funext s
  simp only [andThen]
  rcases w s with ⟨_ | e, s'⟩ <;> rfl

theorem values_eq (v : Visitor σ ε) (es : List Value) :
    values v es = nodes v (es.map .value) := by
  induction es with
  | nil => simp [values, nodes]
  | cons e es ih => simp only [values, List.map_cons, nodes, node, ih]

/-- A node is walked by its call and then by its parts. -/
theorem node_eq (v : Visitor σ ε) (n : Node) :
    node v n = call v (.ofNode n) (nodes v n.parts) := by
  cases n with
  | value x => cases x <;> simp [node, value, Call.ofNode, Node.parts, values_eq, nodes]
  | operation op | identifier name | reference r =>
    simp [node, callOperator, Call.ofNode, Node.parts, nodes]
  | compare l op r | logic l op r | predicate l op | not inner | parentheses inner
  | between l op low high | function name params =>
    simp [node, Call.ofNode, Node.parts, nodes, andThen_done]

/-- A node and what follows it in a listing are walked one after the other. -/
theorem run_listing_append (v : Visitor σ ε) (n : Node) (rest : List (Call × Nat)) :
    run v (n.listing ++ rest) = (node v n).andThen (run v rest) := by
  have hparts : ∀ ns : List Node, (∀ m ∈ ns, sizeOf m < sizeOf n) → ∀ rest,
      run v (ns.flatMap Node.listing ++ rest) = (nodes v ns).andThen (run v rest) := by
    -- The parts are taken one by one; each of them is smaller than the node.
    intro ns hns rest
    induction ns with
    | nil =>
      rw [nodes]
      rfl
    | cons m ms ih =>
      obtain ⟨hm, hms⟩ := List.forall_mem_cons.mp hns
      rw [List.flatMap_cons, List.append_assoc, run_listing_append v m, ih hms, nodes,
        andThen_assoc]
  have hbelow := hparts n.parts (fun _ => Node.sizeOf_lt_of_mem_parts) rest
  rw [Node.listing_eq, List.cons_append, node_eq, run]
  funext s
  rcases hreply : v (.ofNode n) s with ⟨reply, s'⟩
  cases reply with
  | descend => simp only [andThen, call, hreply, hbelow]
  | skip => simp [andThen, call, hreply]
  | stop e => simp [andThen, call, hreply]
termination_by sizeOf n

end Walk

/-- Visiting a tree makes the calls of its listing. -/
theorem Node.visit_eq_run {σ ε : Type} (n : Node) (v : Visitor σ ε) (s : σ) :
    n.visit v s = Walk.run v n.listing s := by
  have hrun := Walk.run_listing_append v n []
  have hnil : Walk.run v [] = Walk.done := by rw [Walk.run]
  rw [List.append_nil, hnil, Walk.andThen_done] at hrun
  rw [visit, hrun]

end FilterQuery
