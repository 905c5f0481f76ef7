import Ioxd.Pipe.FeedLaws

/-!
# The reader loses nothing

A client makes any calls on a reader, in any order, while the world delivers
buffers, overwrites the ones it has and ends the input. It writes down the
bytes it consumed and the bytes it kept; `run_faithful` is what these are.
-/

namespace Ioxd.Pipe

open Flat

inductive Call
  | read
  | avail
  | examine (n : Nat)
  | drop (n : Nat)
  | keep (n : Nat)
  | runBegin
  | release
  | copy (n : Nat)
  | inject (data : List Byte)
  /-- Not a call: the world moves between two of them. -/
  | tick

/-- A reader and its client's notes: the bytes consumed by `drop`, `keep` and
`copy`, in call order, and the bytes kept since the last `runBegin` or
`release`. Kept bytes are noted as they are found at the pointer `keep`
returns, copied ones as they are found in `dst`. -/
structure Client extends Feed where
  consumed : List Byte
  noted : List Byte

namespace Client

def init (buf : Mem Byte) (cap : Nat) (slab : Nat → Mem Byte) (script : List Event) : Client where
  toFeed := .init buf cap slab script
  consumed := []
  noted := []

def call (c : Client) : Call → Client
  | .read => { c with toFeed := c.toFeed.read.2 }
  | .avail => { c with toFeed := c.toFeed.avail.2 }
  | .examine n => { c with toFeed := c.toFeed.examine n }
  | .drop n => { c with
      toFeed := c.toFeed.drop n
      consumed := c.consumed ++ c.toFeed.live.take n }
  | .keep n =>
    let (p, f) := c.toFeed.keep n
    { toFeed := f
      consumed := c.consumed ++ f.bytes ⟨p, n⟩
      noted := c.noted ++ f.bytes ⟨p, n⟩ }
  | .runBegin => { c with toFeed := c.toFeed.runBegin, noted := [] }
  | .release => { c with toFeed := c.toFeed.release, noted := [] }
  | .copy n =>
    let (_, dst, f) := c.toFeed.copy n
    { c with toFeed := f, consumed := c.consumed ++ dst }
  | .inject data => { c with toFeed := (c.toFeed.inject data).2 }
  | .tick => { c with toFeed := c.toFeed.tick }

def run (c : Client) (calls : List Call) : Client := calls.foldl call c

variable {c : Client}

structure Faithful (c : Client) : Prop where
  ok : c.toFeed.Ok
  noted : c.view.kept = c.noted
  taken : c.view.error = none → c.consumed ++ c.view.live = c.taken

theorem init_faithful (buf : Mem Byte) (cap : Nat) (slab : Nat → Mem Byte) (script : List Event) :
    Faithful (init buf cap slab script) where
  ok := Feed.init_ok buf cap slab script
  noted := Reader.kept_nil (s := (init buf cap slab script).toReader) rfl
  taken _ := rfl

-- ---------------------------------------------------------------------------
-- One call
-- ---------------------------------------------------------------------------

section Steps

variable (h : Faithful c)
include h

theorem grew_faithful (hg : Feed.Grew c.toFeed f d) : Faithful { c with toFeed := f } where
  ok := hg.ok
  noted := by
    show f.view.kept = _
    rw [hg.view]
    exact h.noted
  taken he := by
    change f.view.error = none at he
    rw [hg.view] at he
    show c.consumed ++ f.view.live = f.taken
    rw [hg.view, hg.taken, ← h.taken he]
    simp [Feed.view, View.append]

theorem stays_faithful (hs : Feed.Stays c.toFeed f v) (hd : c.view.live = d ++ v.live)
    (he : v.error = none → c.view.error = none) (hk : v.kept = kept) :
    Faithful ⟨f, c.consumed ++ d, kept⟩ where
  ok := hs.ok
  noted := by
    show f.view.kept = kept
    rw [hs.view, hk]
  taken hn := by
    change f.view.error = none at hn
    show c.consumed ++ d ++ f.view.live = f.taken
    rw [hs.view] at hn ⊢
    rw [hs.taken, ← h.taken (he hn), List.append_assoc, hd]

theorem ended_faithful (hok : f.Ok) (hv : f.view = { c.view with eof := b })
    (ht : f.taken = c.taken) : Faithful { c with toFeed := f } where
  ok := hok
  noted := by
    show f.view.kept = _
    rw [hv]
    exact h.noted
  taken hn := by
    change f.view.error = none at hn
    show c.consumed ++ f.view.live = f.taken
    rw [hv] at hn ⊢
    rw [ht]
    exact h.taken hn

theorem failed_faithful (hok : f.Ok) (hv : f.view = { c.view with eof := b, error := some e }) :
    Faithful { c with toFeed := f } where
  ok := hok
  noted := by
    show f.view.kept = _
    rw [hv]
    exact h.noted
  taken hn := by
    change f.view.error = none at hn
    simp [hv] at hn

theorem read_faithful : Faithful (c.call .read) := by
  have hr := Feed.read_outcome h.ok
  simp only [call]
  generalize c.toFeed.read = r at hr
  cases hr with
  | some hg => exact grew_faithful h hg
  | ended hg hok hv ht => exact ended_faithful (grew_faithful h hg) hok hv ht
  | error hg hok hv => exact failed_faithful (grew_faithful h hg) hok hv

theorem avail_faithful : Faithful (c.call .avail) := by
  have hr := Feed.avail_outcome h.ok
  simp only [call]
  generalize c.toFeed.avail = r at hr
  cases hr with
  | some hg => exact grew_faithful h hg
  | ended hg hok hv ht => exact ended_faithful (grew_faithful h hg) hok hv ht
  | error hg hok hv => exact failed_faithful (grew_faithful h hg) hok hv

theorem copy_faithful (n : Nat) : Faithful (c.call (.copy n)) := by
  have hr := Feed.copy_outcome h.ok n
  simp only [call]
  generalize c.toFeed.copy n = r at hr
  cases hr with
  | @some u t d hg hl hn hs =>
    have hu := grew_faithful h hg
    exact stays_faithful hu hs (List.take_append_drop n u.live).symm (fun he => he) hu.noted
  | @nothing u t d hn hg hs =>
    have hu := grew_faithful h hg
    exact stays_faithful hu hs (d := []) rfl (fun he => he) hu.noted
  | ended hl hok hv ht =>
    rw [List.append_nil]
    exact ended_faithful h hok hv ht
  | error hok hv =>
    rw [List.append_nil]
    exact failed_faithful h hok hv

theorem keep_faithful (n : Nat) : Faithful (c.call (.keep n)) := by
  have hk := Reader.keep_outcome h.ok.reader n
  simp only [call, Feed.keep]
  generalize c.toFeed.toReader.keep n = r at hk
  cases hk with
  | past => simpa [Reader.bytes] using h
  | nothing hn =>
    have hb : c.bytes ⟨(Reader.liveSpan c.pr).p, n⟩ = [] := by
      subst hn
      unfold Reader.bytes
      split <;> simp
    simpa [hb] using h
  | @kept p t hpos hle hne he hb =>
    have hs := Feed.stays_of_effect h.ok he
    simp only [hb]
    refine stays_faithful h hs (List.take_append_drop n c.live).symm (fun he => he) ?_
    show c.view.kept ++ _ = _
    rw [h.noted]
    rfl
  | @full t hpos hle he =>
    have hs := Feed.stays_of_effect h.ok he
    refine stays_faithful h hs rfl (fun he => by simp [View.full] at he) ?_
    show c.view.kept = _
    rw [h.noted]
    exact (List.append_nil _).symm

theorem inject_faithful (data : List Byte) : Faithful (c.call (.inject data)) := by
  have he := Reader.inject_effect h.ok.reader data
  simp only [call, Feed.inject]
  generalize c.toFeed.toReader.inject data = r at he
  have hok := Feed.ok_of_effect h.ok he
  refine ⟨⟨hok.reader, hok.own, hok.nodup, hok.queued⟩, ?_, fun hn => ?_⟩
  · show r.2.view.kept = c.noted
    rw [he.view]
    split <;> exact h.noted
  · change r.2.view.error = none at hn
    show c.consumed ++ r.2.view.live = if r.1 then c.taken ++ data else c.taken
    rw [he.view] at hn ⊢
    split at hn
    · rw [if_pos ‹_›, if_pos ‹_›, ← h.taken hn, List.append_assoc]
      rfl
    · rw [if_neg ‹_›, if_neg ‹_›]
      exact h.taken hn

theorem call_faithful (op : Call) : Faithful (c.call op) := by
  cases op with
  | read => exact read_faithful h
  | avail => exact avail_faithful h
  | examine n =>
    have hs := Feed.stays_of_effect h.ok (Reader.examine_effect h.ok.reader n)
    have := stays_faithful h hs (d := []) rfl (fun he => he) h.noted
    rwa [List.append_nil] at this
  | drop n =>
    have hs := Feed.stays_of_effect h.ok (Reader.drop_effect h.ok.reader n)
    exact stays_faithful h hs (List.take_append_drop n c.live).symm (fun he => he) h.noted
  | keep n => exact keep_faithful h n
  | runBegin =>
    obtain ⟨e, he, hr⟩ := Reader.runBegin_effect h.ok.reader
    have hs := Feed.stays_of_effect h.ok hr
    have := stays_faithful h hs (d := []) rfl (fun hn => ?_) rfl
    · rwa [List.append_nil] at this
    · rcases he with rfl | rfl
      · exact hn
      · cases hn
  | release =>
    have hs := Feed.stays_of_effect h.ok (Reader.release_effect h.ok.reader)
    have := stays_faithful h hs (d := []) rfl (fun he => he) rfl
    rwa [List.append_nil] at this
  | copy n => exact copy_faithful h n
  | inject data => exact inject_faithful h data
  | tick =>
    obtain ⟨hq, -⟩ := Feed.tick_quiet h.ok
    have hv : c.toFeed.tick.view = { c.view with eof := c.view.eof } := hq.view
    exact ended_faithful h hq.ok hv hq.taken

end Steps

theorem run_inv (h : Faithful c) (calls : List Call) : Faithful (c.run calls) := by
  induction calls generalizing c with
  | nil => exact h
  | cons op calls ih => exact ih (call_faithful h op)

/-- A kernel buffer that the live span or the run points into is out to the
reader: it has not been returned since it was last delivered. -/
theorem out_of_pointed (h : Faithful c) {i off : Nat}
    (hp : (Reader.liveSpan c.pr).p = .kernel i off ∨ (Reader.run c.pr).p = .kernel i off) :
    ¬ c.Free i := by
  have hok := h.ok.reader
  have hc : c.pr.hasCur = true ∧ c.pr.cur.bufId = i := by
    have := hok.runCur
    unfold Reader.liveSpan Reader.run at hp
    grind
  have hm : i ∈ c.out := List.mem_append_right _ (hc.2 ▸ Reader.cur_held hok hc.1)
  exact fun hf => Feed.not_out_of_free h.ok hf hm

/-- From the start, under any calls and anything the world does: the offsets
are in order; what the client consumed, followed by what is live, is what was
taken from the queue and injected, and none of it is in a returned buffer; the
run is what was kept. -/
theorem run_faithful (buf : Mem Byte) (cap : Nat) (slab : Nat → Mem Byte) (script : List Event)
    (calls : List Call) :
    let c := run (init buf cap slab script) calls
    (c.pr.liveInBuf = true →
      c.pr.floor ≤ c.pr.bufPos ∧ c.pr.bufPos ≤ c.pr.bufEnd ∧ c.pr.bufEnd ≤ c.pr.cap) ∧
    c.pr.curPos ≤ c.pr.cur.len ∧
    c.bytes (Reader.run c.pr) = c.noted ∧
    (∀ i off, (Reader.liveSpan c.pr).p = .kernel i off ∨ (Reader.run c.pr).p = .kernel i off →
      ¬ c.Free i) ∧
    (c.pr.error = none → c.consumed ++ c.bytes (Reader.liveSpan c.pr) = c.taken) := by
  have h := run_inv (init_faithful buf cap slab script) calls
  exact ⟨h.ok.reader.inBuf, h.ok.reader.curPos, h.noted, fun _ _ => out_of_pointed h, h.taken⟩

end Client

end Ioxd.Pipe
