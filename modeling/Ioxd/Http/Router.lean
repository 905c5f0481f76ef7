import Ioxd.Http.Head
import Ioxd.Lib.Trie

/-!
# The router

`lib/http/router.c`: the table of endpoints, the tree that `ioxd__router_build`
makes of it, the walk of a request's path through the tree, and the middleware
around what it finds. A table is the list of its endpoints in the order of their
registration; `M` and `H` are the middleware and handlers.
-/

namespace Ioxd.Http

open Flat
open Ioxd.Pipe (Byte)

abbrev Segment := List Byte

def slash : Byte := 47

def maxRouteParams : Nat := 8

def seenMax : Nat := 8

def allowMax : Nat := 16

def routeArena : Nat := 256

/-- A group by its own prefix and middleware. -/
structure Group (M : Type) where
  path : List Byte
  mws : List M

/-- `groups` are the endpoint's group, its parent, and so on to the root. -/
structure Endpoint (M H : Type) where
  groups : List (Group M)
  method : List Byte
  path : List Byte
  seq : Nat
  fn : H
  own : List M

/-- An endpoint in the tree, with the names its captures were given. -/
structure Route (M H : Type) extends Endpoint M H where
  names : List (List Byte)

abbrev Node (M H : Type) := Trie Segment (Route M H)

variable {M H : Type}

-- ---------------------------------------------------------------------------
-- Paths
-- ---------------------------------------------------------------------------

def nextSegment (at' : List Byte) : Option (Segment × List Byte) :=
  let p := at'.dropWhile (· == slash)
  if p = [] then none else some (p.takeWhile (· != slash), p.dropWhile (· != slash))

def segmentsLoop : Nat → List Byte → List Segment
  | 0, _ => []
  | turns + 1, at' =>
    match nextSegment at' with
    | none => []
    | some (seg, rest) => seg :: segmentsLoop turns rest

/-- What `next_segment` gives from the start of a path on; each has a byte. -/
def segments (path : List Byte) : List Segment := segmentsLoop path.length path

def prepend (buf part : List Byte) : List Byte :=
  if part ≠ [] ∧ buf ≠ [] ∧ part.getLast? ≠ some slash ∧ buf.head? ≠ some slash then
    part ++ slash :: buf
  else part ++ buf

def fullPath (ep : Endpoint M H) : List Byte :=
  (ep.groups.map (·.path)).foldl prepend (prepend [] ep.path)

def flattenChain (ep : Endpoint M H) : List M := ep.groups.reverse.flatMap (·.mws) ++ ep.own

-- ---------------------------------------------------------------------------
-- The tree
-- ---------------------------------------------------------------------------

def isCapture (seg : Segment) : Bool := seg.head? == some 58

def addEndpoint (node : Node M H) (route : Route M H) : Node M H :=
  if node.items.any (·.method == route.method) then node
  else node.setItems (node.items ++ [route])

def insertAt (ep : Endpoint M H) : List Segment → List (List Byte) → Node M H → Node M H
  | [], names, node => addEndpoint node ⟨ep, names⟩
  | seg :: segs, names, node =>
    if isCapture seg then
      if names.length = maxRouteParams then node
      else node.setWild (insertAt ep segs (names ++ [seg.drop 1]) (node.wild.getD .empty))
    else node.setKid seg (insertAt ep segs names ((node.kid? seg).getD .empty))

def insert (tree : Node M H) (ep : Endpoint M H) : Node M H :=
  insertAt ep (segments (fullPath ep)) [] tree

def routerBuild (table : List (Endpoint M H)) : Node M H := table.foldl insert .empty

-- ---------------------------------------------------------------------------
-- The walk
-- ---------------------------------------------------------------------------

/-- The loop of `endpoint_for`, with `get` as it stands. -/
def endpointLoop (method : List Byte) : List (Route M H) → Option (Route M H) → Option (Route M H)
  | [], get => if method = str "HEAD" then get else none
  | ep :: eps, get =>
    if ep.method = method then some ep
    else endpointLoop method eps (if ep.method = str "GET" then some ep else get)

def endpointFor (eps : List (Route M H)) (method : List Byte) : Option (Route M H) :=
  endpointLoop method eps none

/-- The captured values, and the nodes `seen`, each by its endpoints. -/
structure Walk (M H : Type) where
  values : List Segment
  seen : List (List (Route M H))

def Walk.see (w : Walk M H) (eps : List (Route M H)) : Walk M H :=
  if eps ≠ [] ∧ w.seen.length < seenMax then { w with seen := w.seen ++ [eps] } else w

/-- The half of a turn of `walk` that takes the segment as a capture. -/
def walkParam (step : Node M H → Walk M H → Option (Route M H) × Walk M H) (node : Node M H)
    (seg : Segment) (w : Walk M H) : Option (Route M H) × Walk M H :=
  match node.wild with
  | none => (none, w)
  | some kid =>
    if w.values.length < maxRouteParams then
      match step kid { w with values := w.values ++ [seg] } with
      | (some ep, w') => (some ep, w')
      | (none, w') => (none, { w' with values := w.values })
    else (none, w)

def walk (method : List Byte) : List Segment → Node M H → Walk M H → Option (Route M H) × Walk M H
  | [], node, w => (endpointFor node.items method, w.see node.items)
  | seg :: segs, node, w =>
    match node.kid? seg with
    | none => walkParam (walk method segs) node seg w
    | some kid =>
      match walk method segs kid w with
      | (some ep, w) => (some ep, w)
      | (none, w) => walkParam (walk method segs) node seg w

-- ---------------------------------------------------------------------------
-- What the request is answered with
-- ---------------------------------------------------------------------------

/-- The loop of `decoded`. -/
def decodedLoop : List Byte → List Byte
  | 37 :: h :: l :: cs =>
    match hexval h, hexval l with
    | some hi, some lo => UInt8.ofNat (hi * 16 + lo) :: decodedLoop cs
    | _, _ => 37 :: decodedLoop (h :: l :: cs)
  | c :: cs => c :: decodedLoop cs
  | [] => []

def decoded (raw : List Byte) (used : Nat) : List Byte × Nat :=
  if 37 ∉ raw ∨ used + raw.length > routeArena then (raw, used)
  else (decodedLoop raw, used + (decodedLoop raw).length)

def decodeValues : Nat → List Segment → List (List Byte)
  | _, [] => []
  | used, raw :: raws => (decoded raw used).1 :: decodeValues (decoded raw used).2 raws

def listed (out : List (Route M H)) (ep : Route M H) : Bool := out.any (·.method == ep.method)

def place (ep : Route M H) : List (Route M H) → List (Route M H)
  | [] => [ep]
  | e :: out => if e.seq < ep.seq then e :: place ep out else ep :: e :: out

def allowOne (out : List (Route M H)) (ep : Route M H) : List (Route M H) :=
  if out.length < allowMax ∧ ¬ listed out ep then place ep out else out

def allowedEndpoints (seen : List (List (Route M H))) : List (Route M H) :=
  seen.flatten.foldl allowOne []

def addHead (eps : List (Route M H)) : Bool :=
  eps.any (·.method == str "GET") && !eps.any (·.method == str "HEAD")

def allowMethods (eps : List (Route M H)) : List (List Byte) :=
  eps.flatMap fun ep =>
    if addHead eps && ep.method == str "GET" then [ep.method, str "HEAD"] else [ep.method]

def commaSeparated (methods : List (List Byte)) : List Byte :=
  (methods.intersperse (str ", ")).flatten

def allowLen (eps : List (Route M H)) : Nat :=
  (if eps.length = 0 then 0 else (eps.length - 1) * 2 + 1) + (eps.map (·.method.length)).sum +
    if addHead eps then 6 else 0

def allowValue (seen : List (List (Route M H))) : Option (List Byte) :=
  let eps := allowedEndpoints seen
  if eps.length = 0 ∨ allowLen eps > routeArena then none
  else some (commaSeparated (allowMethods eps))

/-- What the request runs: an endpoint with its captures, the 405 handler with
the response as it finds it, or the fallback. -/
inductive Dispatched (M H : Type)
  | endpoint (route : Route M H) (params : List (List Byte × List Byte))
  | notAllowed (res : Response)
  | fallback

/-- The middleware that `run` is given in front of it. -/
def Dispatched.chain (root : List M) : Dispatched M H → List M
  | .endpoint route _ => flattenChain route.toEndpoint
  | .notAllowed _ => root
  | .fallback => root

def routerDispatch (tree : Node M H) (method path : List Byte) (res : Response) :
    Dispatched M H :=
  match walk method (segments path) tree ⟨[], []⟩ with
  | (some ep, w) => .endpoint ep (ep.names.zip (decodeValues 0 w.values))
  | (none, w) =>
    if w.seen = [] then .fallback
    else
      let res := { res with status := 405 }
      .notAllowed <|
        match allowValue w.seen with
        | some value => (header res (str "allow") value).2
        | none => res

end Ioxd.Http
