import Ioxd.Http.HeadLaws

/-!
# The head that a handler's calls leave

Any calls of `ioxd_header`, `ioxd_content_type` and `ioxd_content_length`, with
any strings. What the accepted ones ask for is what a client reads back from the
serialized head, line by line and field by field, between the lines that the
engine writes itself.
-/

namespace Ioxd.Http

open Flat
open Ioxd.Pipe (Byte)
open Message (Head Field splitLines splitField)

inductive HeadCall
  | header (name value : List Byte)
  | contentType (type : List Byte)
  | contentLength (n : UInt64)

def HeadCall.apply (res : Response) : HeadCall → Bool × Response
  | .header name value => Http.header res name value
  | .contentType type => Http.contentType res type
  | .contentLength n => Http.contentLength res n

def Response.calls (res : Response) (cs : List HeadCall) : Response :=
  cs.foldl (fun res c => (c.apply res).2) res

/-- What a handler has asked for: the type, and the headers in order. -/
structure Asked where
  type : List Byte
  fields : List (List Byte × List Byte)

def Asked.add (a : Asked) : HeadCall → Asked
  | .header name value =>
    if eqCi (cstr name) (str "content-type") then { a with type := cstr value }
    else { a with fields := a.fields ++ [((cstr name).map lowerAscii, cstr value)] }
  | .contentType type => { a with type := cstr type }
  | .contentLength _ => a

/-- What the accepted ones of these calls ask for. -/
def asked : Response → Asked → List HeadCall → Asked
  | _, a, [] => a
  | res, a, c :: cs => asked (c.apply res).2 (if (c.apply res).1 then a.add c else a) cs

def Field.pair (f : Field) : List Byte × List Byte := (f.name, f.value)

-- ---------------------------------------------------------------------------
-- One call
-- ---------------------------------------------------------------------------

theorem cstr_cstr (s : List Byte) : cstr (cstr s) = cstr s := by
  unfold cstr
  exact List.takeWhile_idem

theorem contentType_refused {res : Response} {type : List Byte}
    (h : (contentType res type).1 = false) : (contentType res type).2 = res := by
  unfold contentType at h ⊢
  dsimp only at h ⊢
  split_ifs at h ⊢ <;> rfl

theorem contentType_bytes {res : Response} {type : List Byte}
    (h : (contentType res type).1 = true) :
    (contentType res type).2.contentTypeBytes = cstr type := by
  unfold contentType at h ⊢
  dsimp only at h ⊢
  split_ifs at h ⊢
  simp only [Response.contentTypeBytes, read_write_self]

theorem header_refused {res : Response} {name value : List Byte}
    (h : (header res name value).1 = false) : (header res name value).2 = res := by
  unfold header at h ⊢
  dsimp only at h ⊢
  split_ifs at h ⊢ <;> try rfl
  · exact contentType_refused h
  · cases hr : res.headRoom (headerLine (cstr name) (cstr value)).length with
    | none => rfl
    | some p => simp [hr] at h

theorem apply_refused {res : Response} {c : HeadCall} (h : (c.apply res).1 = false) :
    (c.apply res).2 = res := by
  cases c with
  | header name value => exact header_refused h
  | contentType type => exact contentType_refused h
  | contentLength n =>
    simp only [HeadCall.apply, contentLength] at h ⊢
    split_ifs at h ⊢
    · rfl

/-- The response holds what was asked for. -/
structure Holds (res : Response) (a : Asked) : Prop where
  ok : HeadOk res
  fields : ∃ fs : List Field, Arena res fs ∧ fs.map Field.pair = a.fields
  type : res.contentTypeBytes = a.type

theorem contentType_holds {res : Response} {a : Asked} (h : Holds res a) {type : List Byte}
    (hok : (contentType res type).1 = true) :
    Holds (contentType res type).2 { a with type := cstr type } := by
  obtain ⟨fs, ha, hf⟩ := h.fields
  obtain ⟨h1, h2⟩ := contentType_arena h.ok type ha
  exact ⟨h1, ⟨fs, h2, hf⟩, contentType_bytes hok⟩

theorem apply_holds {res : Response} {a : Asked} (h : Holds res a) {c : HeadCall}
    (hok : (c.apply res).1 = true) : Holds (c.apply res).2 (a.add c) := by
  cases c with
  | contentType type => exact contentType_holds h hok
  | contentLength n =>
    obtain ⟨fs, ha, hf⟩ := h.fields
    simp only [HeadCall.apply, contentLength] at hok ⊢
    split_ifs at hok ⊢
    · exact ⟨h.ok.congr rfl rfl rfl, ⟨fs, ha, hf⟩, h.type⟩
  | header name value =>
    obtain ⟨fs, ha, hf⟩ := h.fields
    have hh := header_headed h.ok ha name value
    have ht (hc : eqCi (cstr name) (str "content-type") = true)
        (hk : (contentType res (cstr value)).1 = true) :
        Holds (contentType res (cstr value)).2 (a.add (.header name value)) := by
      have hr := contentType_holds h hk
      rw [cstr_cstr] at hr
      simpa only [Asked.add, if_pos hc] using hr
    simp only [HeadCall.apply] at hok ⊢
    generalize header res name value = r at hh hok
    cases hh with
    | refused => cases hok
    | typed hc _ _ => exact ht hc hok
    | @added res' f hc hname hvalue hk har htype =>
      refine ⟨hk, ⟨fs ++ [f], har, ?_⟩, ?_⟩
      · simp only [Asked.add, if_neg hc, List.map_append, hf, List.map_cons, List.map_nil,
          Field.pair, hname, hvalue]
      · simpa only [Asked.add, if_neg hc] using htype.trans h.type

theorem calls_holds {res : Response} {a : Asked} (h : Holds res a) (cs : List HeadCall) :
    Holds (res.calls cs) (asked res a cs) := by
  induction cs generalizing res a with
  | nil => exact h
  | cons c cs ih =>
    unfold asked
    show Holds ((c.apply res).2.calls cs) _
    cases hok : (c.apply res).1 with
    | true =>
      rw [if_pos rfl]
      exact ih (apply_holds h hok)
    | false =>
      rw [if_neg (by simp), apply_refused hok]
      exact ih h

theorem init_holds (arena : Mem Byte) : Holds (.init arena) ⟨str "text/plain", []⟩ :=
  ⟨init_headOk arena, ⟨[], ⟨by simp, by simp [Response.init]⟩, rfl⟩, rfl⟩

-- ---------------------------------------------------------------------------
-- The head as a client reads it
-- ---------------------------------------------------------------------------

/-- The lines and the copied type share the arena without meeting. -/
def Response.Apart (res : Response) : Prop :=
  match res.contentType with
  | .literal _ => res.headLen ≤ respHeadCap
  | .arena off len => res.headLen ≤ off ∧ off + len = respHeadCap

/-- Whatever was called, the head has room, and reads back as the status, the
last accepted type, the lines of the engine and the accepted headers. -/
theorem head_uncorrupted (arena : Mem Byte) (cs : List HeadCall) (status : Int) (close : Bool)
    (minorVersion : Nat) (keepAlive : Bool) (frame : Frame) (bodyLen : UInt64) :
    (∃ (bytes : List Byte) (lines : List (List Byte)),
      buildHead minorVersion keepAlive
        { (Response.init arena).calls cs with status := status, close := close } headCap frame
        bodyLen.toNat = some bytes ∧
      bytes.length ≤ headCap ∧
      splitLines bytes = startLine (wireStatus status) :: lines ++ [[], []] ∧
      lines.map splitField =
        (str "content-type", (asked (.init arena) ⟨str "text/plain", []⟩ cs).type) ::
          (frameFields frame bodyLen.toNat ++
            connectionFields minorVersion (keepAlive && !close)).map Field.pair ++
          (asked (.init arena) ⟨str "text/plain", []⟩ cs).fields) ∧
    (∀ f ∈ (asked (.init arena) ⟨str "text/plain", []⟩ cs).fields,
      f.1 ≠ str "content-type" ∧ f.1 ≠ str "content-length" ∧ f.1 ≠ str "transfer-encoding" ∧
        f.1 ≠ str "connection") ∧
    ((Response.init arena).calls cs).Apart ∧
    (∀ c : HeadCall, (c.apply ((Response.init arena).calls cs)).1 = false →
      (c.apply ((Response.init arena).calls cs)).2 = (Response.init arena).calls cs) := by
  have h := calls_holds (init_holds arena) cs
  generalize (Response.init arena).calls cs = res at h
  generalize asked (.init arena) ⟨str "text/plain", []⟩ cs = a at h
  obtain ⟨fs, ha, hf⟩ := h.fields
  refine ⟨?_, ?_, ?_, fun c hc => apply_refused hc⟩
  · have hok : HeadOk { res with status := status, close := close } := h.ok.congr rfl rfl rfl
    have ha' : Arena { res with status := status, close := close } fs := ha
    obtain ⟨hd, type, hbuild, hstart, hname, hvalue, hfields, hlen⟩ :=
      buildHead_fields hok ha' minorVersion keepAlive frame bodyLen.toNat
    refine ⟨hd.encode, hd.fields.map Field.line, hbuild, hlen, ?_, ?_⟩
    · rw [hd.splitLines_encode, Head.lines, hstart]
    · have hpair : (fun f : Field => splitField f.line) = Field.pair :=
        funext Field.splitField_line
      have htype : Field.pair type = (str "content-type", a.type) :=
        Prod.ext hname (hvalue.trans h.type)
      rw [List.map_map]
      show hd.fields.map (fun f : Field => splitField f.line) = _
      rw [hpair, hfields]
      simp only [List.map_append, List.map_cons, htype, hf, List.cons_append]
  · intro f hm
    rw [← hf] at hm
    obtain ⟨g, hg, rfl⟩ := List.mem_map.mp hm
    obtain ⟨h1, h2, h3, h4⟩ := ha.1 g hg
    exact ⟨h4, h1, h2, h3⟩
  · have hroom := h.ok.room
    unfold Response.Apart
    split
    · rename_i hc
      simp only [hc] at hroom
      exact hroom.2
    · rename_i hc
      simp only [hc] at hroom
      exact ⟨hroom.2, hroom.1⟩

end Ioxd.Http
