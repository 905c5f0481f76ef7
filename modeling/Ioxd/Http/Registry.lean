import Ioxd.Http.Router

/-!
# Registration

The first half of `lib/http/router.c`: groups, endpoints and their middleware as
they are registered, the open group of the script form, and what
`ioxd__router_build` resolves. A group and an endpoint are known by their places
in the order they were made in; the root is group 0. `Script` is what a program
executes of the `IOXD_` macros of `ioxd/router.h`, blocks it leaves early
included. A block's middleware goes around everything in it, also around what was
registered before it, so what a script means is stated block by block, with no
group open and none made.
-/

namespace Ioxd.Http

open Ioxd.Pipe (Byte)

def maxMw : Nat := 16

/-- `ioxd_group`; the root alone has no parent. -/
structure GroupRec (M : Type) where
  parent : Option Nat
  path : List Byte
  mws : List M

/-- `ioxd_endpoint`, before it is resolved. -/
structure EndpointRec (M H : Type) where
  group : Nat
  method : List Byte
  path : List Byte
  seq : Nat
  fn : H
  own : List M

/-- The state of `router.c`. The fallback is the built-in one as long as none is set. -/
structure Registry (M H : Type) where
  groups : List (GroupRec M)
  current : Nat
  endpoints : List (EndpointRec M H)
  tree : Node M H
  fallback : Option H
  built : Bool

namespace Registry

variable {M H : Type}

def init : Registry M H := ⟨[⟨none, [], []⟩], 0, [], .empty, none, false⟩

-- ---------------------------------------------------------------------------
-- The functions
-- ---------------------------------------------------------------------------

def groupNew (parent : Option Nat) (path : List Byte) (r : Registry M H) : Nat × Registry M H :=
  (r.groups.length, { r with groups := r.groups ++ [⟨some (parent.getD 0), path, []⟩] })

def addMw (mws : List M) (mw : M) : List M := if mws.length = maxMw then mws else mws ++ [mw]

def groupUse (group : Option Nat) (mw : M) (r : Registry M H) : Registry M H :=
  if r.built then r
  else { r with groups := r.groups.modify (group.getD 0) fun g => { g with mws := addMw g.mws mw } }

def use (mw : M) (r : Registry M H) : Registry M H :=
  if r.built then r else groupUse (some 0) mw r

def route (group : Option Nat) (method path : List Byte) (fn : H) (r : Registry M H) :
    Option Nat × Registry M H :=
  if r.built then (none, r)
  else
    (some r.endpoints.length, { r with
      endpoints := r.endpoints ++ [⟨group.getD 0, method, path, r.endpoints.length, fn, []⟩] })

def endpointUse (endpoint : Option Nat) (mw : M) (r : Registry M H) : Registry M H :=
  match endpoint with
  | none => r
  | some e =>
    if r.built then r
    else { r with endpoints := r.endpoints.modify e fun ep => { ep with own := addMw ep.own mw } }

def groupBegin (path : List Byte) (mws : List M) (r : Registry M H) : Nat × Registry M H :=
  let (group, r) := r.groupNew (some r.current) path
  let r := (mws.take maxMw).foldl (fun r mw => r.groupUse (some group) mw) r
  (group, { r with current := group })

def groupEnd (r : Registry M H) : Option Nat × Registry M H :=
  (none, match (r.groups[r.current]?).bind (·.parent) with
    | some parent => { r with current := parent }
    | none => r)

def groupPop (block : Option Nat) (r : Registry M H) : Registry M H :=
  if block.isSome then r.groupEnd.2 else r

def routerEndpoint (method path : List Byte) (fn : H) (mws : List M) (r : Registry M H) :
    Option Nat × Registry M H :=
  let (ep, r) := r.route (some r.current) method path fn
  (ep, (mws.take maxMw).foldl (fun r mw => r.endpointUse ep mw) r)

def default (fn : H) (r : Registry M H) : Registry M H :=
  if r.built then r else { r with fallback := some fn }

/-- `for (g = group; g; g = g->parent)`. A parent is older than what is below it,
so there are no more turns than groups. -/
def lineageLoop (groups : List (GroupRec M)) : Nat → Nat → List (Group M)
  | 0, _ => []
  | turns + 1, i =>
    match groups[i]? with
    | none => []
    | some g => ⟨g.path, g.mws⟩ :: (g.parent.elim [] (lineageLoop groups turns))

def lineage (groups : List (GroupRec M)) (i : Nat) : List (Group M) :=
  lineageLoop groups groups.length i

def resolve (groups : List (GroupRec M)) (ep : EndpointRec M H) : Endpoint M H :=
  ⟨lineage groups ep.group, ep.method, ep.path, ep.seq, ep.fn, ep.own⟩

/-- The endpoints with what `full_path` and `flatten_chain` read of their groups. -/
def table (r : Registry M H) : List (Endpoint M H) := r.endpoints.map (resolve r.groups)

/-- How many groups are open; `ioxd__router_build` warns unless it is 0. -/
def groupDepth (r : Registry M H) : Nat := (lineage r.groups r.current).length - 1

def build (r : Registry M H) : Registry M H :=
  if r.built then r else { r with built := true, tree := r.table.foldl insert r.tree }

end Registry

-- ---------------------------------------------------------------------------
-- Scripts
-- ---------------------------------------------------------------------------

/-- `leave n` is a `break`, a `goto` or a `return` out of `n` blocks. -/
inductive Script (M H : Type)
  | done
  | leave (n : Nat)
  | use (mw : M) (rest : Script M H)
  | default (fn : H) (rest : Script M H)
  | endpoint (method path : List Byte) (fn : H) (mws : List M) (rest : Script M H)
  | group (path : List Byte) (mws : List M) (body rest : Script M H)

namespace Script

variable {M H : Type}

/-- How many blocks are still to be left, and the registry. `cleanup` is whether
the compiler has the attribute; a block that ends closes its group either way. -/
def exec (cleanup : Bool) : Script M H → Registry M H → Nat × Registry M H
  | .done, r => (0, r)
  | .leave n, r => (n, r)
  | .use mw rest, r => rest.exec cleanup (r.groupUse (some r.current) mw)
  | .default fn rest, r => rest.exec cleanup (r.default fn)
  | .endpoint method path fn mws rest, r =>
    rest.exec cleanup (r.routerEndpoint method path fn mws).2
  | .group path mws body rest, r =>
    let (block, r) := r.groupBegin path mws
    match body.exec cleanup r with
    | (0, r) =>
      let (block, r) := r.groupEnd
      rest.exec cleanup (if cleanup then r.groupPop block else r)
    | (n + 1, r) =>
      let r := if cleanup then r.groupPop (some block) else r
      if n = 0 then rest.exec cleanup r else (n, r)

-- ---------------------------------------------------------------------------
-- What a script means
-- ---------------------------------------------------------------------------

def exits : Script M H → Nat
  | .done => 0
  | .leave n => n
  | .use _ rest => rest.exits
  | .default _ rest => rest.exits
  | .endpoint _ _ _ _ rest => rest.exits
  | .group _ _ body rest => if body.exits ≤ 1 then rest.exits else body.exits - 1

/-- The middleware of a script's own block, wherever it stands in the block. -/
def uses : Script M H → List M
  | .done => []
  | .leave _ => []
  | .use mw rest => mw :: rest.uses
  | .default _ rest => rest.uses
  | .endpoint _ _ _ _ rest => rest.uses
  | .group _ _ body rest => if body.exits ≤ 1 then rest.uses else []

/-- The fallback behind a script. -/
def fallback : Script M H → Option H → Option H
  | .done, fn => fn
  | .leave _, fn => fn
  | .use _ rest, fn => rest.fallback fn
  | .default fn rest, _ => rest.fallback (some fn)
  | .endpoint _ _ _ _ rest, fn => rest.fallback fn
  | .group _ _ body rest, fn =>
    if body.exits ≤ 1 then rest.fallback (body.fallback fn) else body.fallback fn

/-- A block's group: the middleware listed with it, then what its block uses. -/
def blockGroup (path : List Byte) (mws : List M) (body : Script M H) : Group M :=
  ⟨path, (mws.take maxMw ++ body.uses).take maxMw⟩

/-- The endpoints of a script in a block with these groups around it, the first
of them the one with this number. -/
def endpoints (outer : List (Group M)) : Nat → Script M H → List (Endpoint M H)
  | _, .done => []
  | _, .leave _ => []
  | seq, .use _ rest => rest.endpoints outer seq
  | seq, .default _ rest => rest.endpoints outer seq
  | seq, .endpoint method path fn mws rest =>
    ⟨outer, method, path, seq, fn, mws.take maxMw⟩ :: rest.endpoints outer (seq + 1)
  | seq, .group path mws body rest =>
    let inner := body.endpoints (blockGroup path mws body :: outer) seq
    inner ++ if body.exits ≤ 1 then rest.endpoints outer (seq + inner.length) else []

/-- A whole script's table: the root has no path and what the script uses outside
every block. -/
def table (s : Script M H) : List (Endpoint M H) :=
  s.endpoints [⟨[], s.uses.take maxMw⟩] 0

/-- The blocks that a script leaves before their end. -/
def abandoned : Script M H → Nat
  | .done => 0
  | .leave _ => 0
  | .use _ rest => rest.abandoned
  | .default _ rest => rest.abandoned
  | .endpoint _ _ _ _ rest => rest.abandoned
  | .group _ _ body rest =>
    body.abandoned + (if body.exits = 0 then 0 else 1) +
      if body.exits ≤ 1 then rest.abandoned else 0

end Script

end Ioxd.Http
