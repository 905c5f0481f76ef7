import Ioxd.Pipe.KeptLaws

/-!
# The spans of a client

A client notes every span that `keep` gives it before `run_begin`, with the
bytes it found there. Under any calls and anything the world does, each of them
holds those bytes until the next `release`.
-/

namespace Ioxd.Pipe

open Flat
open Reader (Guards Safe Single Distinct)

namespace Feed

variable {f f' : Feed} {b : Bool}

theorem Ok.distinct (h : f.Ok) : Distinct f.pr := by
  intro hc hp hi he
  have hn := h.nodup
  simp only [out] at hn
  rw [List.nodup_append] at hn
  have := hn.2.1
  simp [Reader.held, hc, hp, hi, he] at this

theorem safe_out (h : f.Ok) {x : Slice} {id off : Nat} (hx : Safe b f.pr x)
    (hp : x.p = .kernel id off) : id ∈ f.out := by
  refine List.mem_append_right _ ?_
  unfold Safe at hx
  rw [hp] at hx
  rcases hx with ⟨h1, h2, -⟩ | ⟨-, h2, h3, -⟩
  · simp [Reader.held, h1, h2]
  · exact h3 ▸ Reader.cur_held h.reader (h.reader.runCur h2).1

theorem slab_guards (h : f.Ok) (hs : Single b f.pr) {id : Nat} (hid : f.Free id) (m : Mem Byte) :
    Guards b b f.toReader { f.toReader with slab := Function.update f.slab id m } := by
  refine ⟨hs, fun _ hx => hx, fun x hx => ?_⟩
  obtain ⟨p, n⟩ := x
  cases p with
  | null => rfl
  | buf off => rfl
  | kernel i off =>
    have hi := safe_out h hx rfl
    have hne : i ≠ id := fun he => not_out_of_free h hid (he ▸ hi)
    simp only [Reader.bytes, Function.update_of_ne hne]

theorem event_guards (h : f.Ok) (hs : Single b f.pr) (e : Event) :
    Guards b b f.toReader (f.event e).toReader := by
  cases e with
  | deliver id data =>
    unfold event
    dsimp only
    split
    · exact .refl hs
    · exact slab_guards h hs (free_pick f id) _
  | scribble id m =>
    unfold event
    dsimp only
    split
    · exact slab_guards h hs ‹_› m
    · exact .refl hs
  | fin gone =>
    unfold event
    dsimp only
    split <;> exact .refl hs

theorem tick_guards (h : f.Ok) (hs : Single b f.pr) : Guards b b f.toReader f.tick.toReader := by
  unfold tick
  split
  · exact .refl hs
  · rename_i e es _
    have hok : Ok { f with script := es } := ⟨h.reader, h.own, h.nodup, h.queued⟩
    exact event_guards hok hs e

theorem wait_guards (h : f.Ok) (hs : Single b f.pr) (es : List Event) :
    Guards b b f.toReader (wait es f).toReader := by
  induction es generalizing f with
  | nil => exact .refl hs
  | cons e es ih =>
    unfold wait
    split
    · exact .refl hs
    · have hg := event_guards h hs e
      exact hg.trans (ih (event_quiet h e).ok hg.single)

theorem more_ok (h : f.Ok) : f.more.2.Ok := by
  have hm := more_outcome h
  generalize f.more = r at hm
  cases hm with
  | some hg => exact hg.ok
  | ended hok => exact hok
  | error hok => exact hok

theorem more_guards (h : f.Ok) (hs : Single b f.pr) :
    Guards b b f.toReader f.more.2.toReader := by
  have hw := wait_guards h hs f.script
  have hok := (wait_spec h f.script).1.ok
  unfold more
  split
  · exact .refl hs
  cases hrx : (wait f.script f).rx with
  | nil =>
    simp only [recvItem_nil hrx]
    exact hw.trans (Reader.moreEnded_guards hw.single _)
  | cons d rest =>
    simp only [recvItem_cons hrx]
    exact hw.trans (Reader.moreItem_guards hok.reader hw.single d.item)

theorem readLoop_guards (h : f.Ok) (hs : Single b f.pr) (fuel : Nat) :
    Guards b b f.toReader (readLoop fuel f).2.toReader := by
  induction fuel generalizing f with
  | zero => exact .refl hs
  | succ fuel ih =>
    unfold readLoop
    split
    · exact .refl hs
    · have hg := more_guards h hs
      have hok := more_ok h
      generalize f.more = r at hg hok
      obtain ⟨rc, t⟩ := r
      cases rc with
      | some => exact hg.trans (ih hok hg.single)
      | ended => exact hg
      | error e => exact hg

theorem read_guards (h : f.Ok) (hs : Single b f.pr) :
    Guards b b f.toReader f.read.2.toReader := by
  unfold read
  split
  · exact .refl hs
  · exact readLoop_guards h hs _

theorem copyLoop_guards (h : f.Ok) (hs : Single b f.pr) (n fuel : Nat) :
    Guards b b f.toReader (copyLoop n fuel f).2.2.toReader := by
  induction fuel generalizing f with
  | zero => exact .refl hs
  | succ fuel ih =>
    unfold copyLoop
    split
    · exact Reader.consume_guards (fun hr => (h.reader.runCur hr).2.1) hs _
    · have hg := more_guards h hs
      have hok := more_ok h
      generalize f.more = r at hg hok
      obtain ⟨rc, t⟩ := r
      cases rc with
      | some => exact hg.trans (ih hok hg.single)
      | ended => exact hg
      | error e => exact hg

theorem copy_guards (h : f.Ok) (hs : Single b f.pr) (n : Nat) :
    Guards b b f.toReader (f.copy n).2.2.toReader := by
  unfold copy
  split
  · exact .refl hs
  · exact copyLoop_guards h hs n _

theorem availLoop_guards (h : f.Ok) (hs : Single b f.pr) (fuel : Nat) :
    Guards b b f.toReader (availLoop fuel f).2.toReader := by
  induction fuel generalizing f with
  | zero => exact .refl hs
  | succ fuel ih =>
    unfold availLoop
    split
    · exact .refl hs
    split
    · exact .refl hs
    · have hg := more_guards h hs
      have hok := more_ok h
      generalize f.more = r at hg hok
      obtain ⟨rc, t⟩ := r
      cases rc with
      | some => exact hg.trans (ih hok hg.single)
      | ended => exact hg
      | error e => exact hg

theorem avail_guards (h : f.Ok) (hs : Single b f.pr) :
    Guards b b f.toReader f.avail.2.toReader := by
  unfold avail
  split
  · exact .refl hs
  · exact availLoop_guards h hs _

end Feed

-- ---------------------------------------------------------------------------
-- Whole runs
-- ---------------------------------------------------------------------------

/-- A span that `keep` returned, and the bytes that were there then. -/
structure Note where
  span : Slice
  data : List Byte

/-- A client with its spans: those of every `keep` since the last `release` and
before a `run_begin` behind it. -/
structure Keeper extends Client where
  begun : Bool
  spans : List Note

namespace Keeper

def init (buf : Mem Byte) (cap : Nat) (slab : Nat → Mem Byte) (script : List Event) : Keeper where
  toClient := .init buf cap slab script
  begun := false
  spans := []

def call (c : Keeper) (op : Call) : Keeper :=
  let client := c.toClient.call op
  match op with
  | .keep n =>
    let p := (c.toFeed.keep n).1
    if c.begun ∨ p = .null then { c with toClient := client }
    else { c with toClient := client, spans := c.spans ++ [⟨⟨p, n⟩, client.bytes ⟨p, n⟩⟩] }
  | .runBegin => { c with toClient := client, begun := true }
  | .release => { toClient := client, begun := false, spans := [] }
  | _ => { c with toClient := client }

def run (c : Keeper) (calls : List Call) : Keeper := calls.foldl call c

/-- `run_begin` is used at most once between two releases. -/
def OnceBegun : Bool → List Call → Prop
  | _, [] => True
  | begun, .runBegin :: calls => begun = false ∧ OnceBegun true calls
  | _, .release :: calls => OnceBegun false calls
  | begun, _ :: calls => OnceBegun begun calls

variable {c : Keeper}

/-- A noted span holds its bytes, and if it has any they are safe. -/
def Stands (begun : Bool) (s : Reader) (x : Note) : Prop :=
  s.bytes x.span = x.data ∧ (x.span.len ≠ 0 → Safe begun s.pr x.span)

structure Keeps (c : Keeper) : Prop where
  faithful : Client.Faithful c.toClient
  single : Single c.begun c.pr
  spans : ∀ x ∈ c.spans, Stands c.begun c.toReader x
  noted : c.begun = false → c.noted = c.spans.flatMap (·.data)

theorem init_keeps (buf : Mem Byte) (cap : Nat) (slab : Nat → Mem Byte) (script : List Event) :
    Keeps (init buf cap slab script) where
  faithful := Client.init_faithful buf cap slab script
  single := fun _ h => by cases h
  spans := fun x hx => by cases hx
  noted := fun _ => rfl

theorem bytes_empty (s : Reader) {x : Slice} (h : x.len = 0) : s.bytes x = [] := by
  obtain ⟨p, n⟩ := x
  obtain rfl : n = 0 := h
  cases p <;> simp [Reader.bytes]

theorem Stands.guarded {b b' : Bool} {s s' : Reader} {x : Note} (h : Stands b s x)
    (hg : Guards b b' s s') : Stands b' s' x := by
  obtain ⟨h1, h2⟩ := h
  by_cases h0 : x.span.len = 0
  · refine ⟨?_, fun hx => absurd h0 hx⟩
    rw [bytes_empty _ h0, ← h1, bytes_empty _ h0]
  · exact ⟨(hg.bytes _ (h2 h0)).trans h1, fun _ => hg.safe _ (h2 h0)⟩

theorem Keeps.guards (h : Keeps c) {c' : Keeper} (hf : Client.Faithful c'.toClient)
    (hg : Guards c.begun c'.begun c.toReader c'.toReader) (hs : c'.spans = c.spans)
    (hn : c'.begun = false → c.begun = false ∧ c'.noted = c.noted) : Keeps c' where
  faithful := hf
  single := hg.single
  spans := fun x hx => (h.spans x (hs ▸ hx)).guarded hg
  noted := fun hb => by
    obtain ⟨h1, h2⟩ := hn hb
    rw [h2, hs]
    exact h.noted h1

theorem call_keeps (h : Keeps c) (op : Call) (hone : op = .runBegin → c.begun = false) :
    Keeps (c.call op) := by
  have hf := Client.call_faithful h.faithful op
  have hok := h.faithful.ok
  cases op with
  | read => exact h.guards hf (Feed.read_guards hok h.single) rfl fun hb => ⟨hb, rfl⟩
  | avail => exact h.guards hf (Feed.avail_guards hok h.single) rfl fun hb => ⟨hb, rfl⟩
  | examine n => exact h.guards hf (Reader.examine_guards h.single n) rfl fun hb => ⟨hb, rfl⟩
  | drop n =>
    exact h.guards hf (Reader.consume_guards (fun hr => (hok.reader.runCur hr).2.1) h.single n) rfl
      fun hb => ⟨hb, rfl⟩
  | keep n =>
    obtain ⟨hg, hsafe⟩ := Reader.keep_guards hok.reader hok.distinct h.single n
    unfold call
    dsimp only
    split
    · rename_i hb
      refine h.guards hf hg rfl fun hbf => ⟨hbf, ?_⟩
      -- a `keep` that gave nothing
      have hnull : (c.toFeed.keep n).1 = .null := hb.resolve_left (by
        have : c.begun = false := hbf
        simp [this])
      show c.noted ++ (c.toFeed.keep n).2.bytes ⟨(c.toFeed.keep n).1, n⟩ = c.noted
      rw [hnull]
      exact List.append_nil _
    · rename_i hb
      rw [not_or, Bool.not_eq_true] at hb
      refine ⟨hf, hg.single, fun x hx => ?_, fun _ => ?_⟩
      · rcases List.mem_append.mp hx with hx | hx
        · exact (h.spans x hx).guarded hg
        · rw [List.mem_singleton.mp hx]
          refine ⟨rfl, fun hn => hsafe hb.1 (Nat.pos_of_ne_zero hn) hb.2⟩
      · show c.noted ++ (c.toFeed.keep n).2.bytes ⟨(c.toFeed.keep n).1, n⟩ =
          (c.spans ++ [_]).flatMap _
        rw [List.flatMap_append, h.noted hb.1]
        simp
        rfl
  | runBegin =>
    have hb := hone rfl
    have hg := Reader.runBegin_guards hok.reader (by rw [← hb]; exact h.single)
    rw [← hb] at hg
    exact h.guards hf hg rfl fun hx => by cases hx
  | release =>
    exact ⟨hf, Reader.release_single _, (by simp [call]), fun _ => rfl⟩
  | copy n => exact h.guards hf (Feed.copy_guards hok h.single n) rfl fun hb => ⟨hb, rfl⟩
  | inject data =>
    exact h.guards hf (Reader.inject_guards hok.reader h.single data) rfl fun hb => ⟨hb, rfl⟩
  | tick => exact h.guards hf (Feed.tick_guards hok h.single) rfl fun hb => ⟨hb, rfl⟩

theorem begun_call (c : Keeper) (op : Call) : (c.call op).begun =
    (match op with
      | .runBegin => true
      | .release => false
      | _ => c.begun) := by
  cases op with
  | keep n =>
    unfold call
    dsimp only
    split <;> rfl
  | _ => rfl

theorem run_keeps (h : Keeps c) {calls : List Call} (hone : OnceBegun c.begun calls) :
    Keeps (c.run calls) := by
  induction calls generalizing c with
  | nil => exact h
  | cons op calls ih =>
    have hb := begun_call c op
    cases op with
    | runBegin => exact ih (call_keeps h _ fun _ => hone.1) (hb ▸ hone.2)
    | _ => exact ih (call_keeps h _ fun hx => by cases hx) (hb ▸ hone)

/-- Any calls with one `run_begin` at most between two releases, whatever the
world does: every span kept since the last `release`, and before `run_begin`,
still holds the bytes that were kept, below the floor of the gathering buffer
or in a kernel buffer that has not been returned; and the run is what was kept
since then. -/
theorem kept_stays (buf : Mem Byte) (cap : Nat) (slab : Nat → Mem Byte) (script : List Event)
    (calls : List Call) (hone : OnceBegun false calls) :
    let c := run (init buf cap slab script) calls
    (∀ x ∈ c.spans, c.bytes x.span = x.data ∧
      match x.span.p with
      | .null => x.span.len = 0
      | .buf off => x.span.len ≠ 0 → off + x.span.len ≤ c.pr.floor
      | .kernel id _ => x.span.len ≠ 0 → id ∈ Reader.held c.pr ∧ ¬ c.Free id) ∧
    c.bytes (Reader.run c.pr) = c.noted ∧
    (c.begun = false → c.noted = c.spans.flatMap (·.data)) := by
  have h := run_keeps (init_keeps buf cap slab script) hone
  refine ⟨fun x hx => ?_, h.faithful.noted, h.noted⟩
  obtain ⟨h1, h2⟩ := h.spans x hx
  refine ⟨h1, ?_⟩
  split
  · rename_i hp
    by_contra h0
    have := h2 h0
    simp only [Safe, hp] at this
  · rename_i off hp
    intro h0
    have := h2 h0
    simp only [Safe, hp] at this
    exact this
  · rename_i id off hp
    intro h0
    have hs := h2 h0
    have hout := Feed.safe_out h.faithful.ok hs hp
    refine ⟨?_, fun hf => Feed.not_out_of_free h.faithful.ok hf hout⟩
    simp only [Safe, hp] at hs
    rcases hs with ⟨e1, e2, -⟩ | ⟨-, e2, e3, -⟩
    · simp [Reader.held, e1, e2]
    · exact e3 ▸ Reader.cur_held h.faithful.ok.reader (h.faithful.ok.reader.runCur e2).1

/-- A head in the kernel's buffer, and the body that came behind it gathered while
the head stays where it is. -/
theorem kept_stays_head :
    let c := run (init (fun _ => 0) 16 (fun _ _ => 0)
      [.deliver 0 [71, 69, 84, 10, 1, 2], .deliver 1 [3, 4]])
      [.read, .keep 4, .runBegin, .keep 2, .tick, .read, .examine 2, .read]
    c.spans.map (·.data) = [[71, 69, 84, 10]] ∧
      ∀ x ∈ c.spans, c.bytes x.span = x.data := by
  refine ⟨by decide +kernel, fun x hx => ?_⟩
  exact ((kept_stays (fun _ => 0) 16 (fun _ _ => 0)
    [.deliver 0 [71, 69, 84, 10, 1, 2], .deliver 1 [3, 4]]
    [.read, .keep 4, .runBegin, .keep 2, .tick, .read, .examine 2, .read]
    ⟨rfl, trivial⟩).1 x hx).1

end Keeper

end Ioxd.Pipe
