import MarkupStream.Proofs.Calls

/-!
The round trip. The spans of the events of a document tile the document, so that their source text put
together is the document again, byte for byte. This holds of every document in both dialects, under
every policy and whatever is asked for as literal text on the way; where the reading fails, what was
handed out before tiles the document up to some offset.
-/
namespace MarkupStream

namespace Nesting

theorem tiles_autoCloseEvents (offset : Nat) (frames : List Frame) :
    Tiles offset ((autoCloseEvents offset frames).map Event.span) offset := by
  induction frames with
  | nil => rfl
  | cons frame outer ih => exact ⟨rfl, Nat.le_refl _, rfl, Nat.le_refl _, ih⟩

theorem tiles_openEvents (tag : OpenTag) (first last : ElementEdge) :
    (openEvents tag first last).map Event.span = (Token.openTag tag).pieces := by
  have hparts : (tag.parts.map Event.ofPart).map Event.span = tag.parts.map TagPart.span := by
    simp [Function.comp_def]
  rw [openEvents, List.map_cons, List.map_append, hparts]
  rfl

theorem tiles_closeEvents (tag : CloseTag) (first last : ElementEdge) :
    (closeEvents tag first last).map Event.span = (Token.closeTag tag).pieces := by
  cases hw : tag.whitespace <;> simp [closeEvents, Token.pieces, hw, Event.span]

/-- Implied closes take no room before a tag. -/
theorem tiles_implied {offset stop : Nat} (frames : List Frame) {events : List Event}
    (h : Tiles offset (events.map Event.span) stop) :
    Tiles offset ((autoCloseEvents offset frames ++ events).map Event.span) stop := by
  rw [List.map_append, tiles_append]
  exact ⟨offset, tiles_autoCloseEvents offset frames, h⟩

/-- The events of a token tile what the pieces of the token tile. -/
theorem Accepts.tiles {n : Nesting} {locate : Nat → Position} {token : Token} {step : Step}
    (h : n.Accepts locate token step) {start stop : Nat} (ht : Tiles start token.pieces stop) :
    Tiles start (step.events.map Event.span) stop := by
  cases h with
  | node hevent =>
    rw [(Event.ofToken?_eq_some hevent).2] at ht
    exact ht
  | standalone tag | opened tag =>
    obtain rfl : tag.start.start = start := ht.1
    rw [← tiles_openEvents] at ht
    exact tiles_implied _ ht
  | closed tag =>
    obtain rfl : tag.start.start = start := ht.1
    rw [← tiles_closeEvents] at ht
    exact tiles_implied _ ht
  | unmatched tag =>
    rw [closeUnmatched, tiles_closeEvents]
    exact ht

end Nesting

namespace EventStream

/-- The known events tile what has been read. -/
structure TilesRead (input : Bytes) (settings : Settings) (events : List ParsedEvent)
    (s : EventStream) : Prop where
  reads : s.Reads input settings
  cursor : (Cursor.start input).Reaches s.tokens.cursor
  tiles : Tiles 0 ((known events s).map Event.span) s.tokens.cursor.offset
  start : s.stage = .start → s.tokens.cursor.offset = 0
  done : s.stage = .done → s.tokens.cursor.rest = []

theorem tilesRead_ofInput (input : Bytes) (settings : Settings) :
    TilesRead input settings [] (ofInput input settings) :=
  ⟨reads_ofInput input settings, Cursor.Reaches.refl _, rfl, fun _ => rfl, fun h => by cases h⟩

theorem TilesRead.fills {input : Bytes} {settings : Settings} {events : List ParsedEvent}
    {s t : EventStream} (h : TilesRead input settings events s) (hq : s.queue = [])
    (hf : s.Fills t) : TilesRead input settings events t := by
  have hreads := h.reads.fills hf
  have htiles := h.tiles
  rw [known_of_queue_nil hq] at htiles
  cases hf with
  | start hs =>
    have h0 := h.start hs
    refine ⟨hreads, h.cursor, ?_, fun hs => (by cases hs), fun hs => (by cases hs)⟩
    rw [known, List.map_append, tiles_append]
    refine ⟨_, htiles, ?_⟩
    rw [h0]
    exact ⟨rfl, Nat.le_refl _, rfl⟩
  | @token token next parts found step hs htiled hparts haccepts =>
    refine ⟨hreads, h.cursor.trans htiled.1, ?_, ?_, ?_⟩
    · rw [known, List.map_append, tiles_append]
      exact ⟨_, htiles, haccepts.tiles htiled.2⟩
    · intro hs'
      simp [hs] at hs'
    · intro hs'
      simp [hs] at hs'
  | @finish step hs hend hfinishes =>
    have hlength : s.tokens.cursor.offset = input.length := by
      have := h.cursor.length
      simpa [hend, Cursor.start] using this
    have hinput : s.input = input := h.reads.tokens_input
    refine ⟨hreads, h.cursor, ?_, fun hs => (by cases hs), fun _ => hend⟩
    rw [known, List.map_append, tiles_append]
    refine ⟨_, htiles, ?_⟩
    rw [List.map_append, tiles_append]
    refine ⟨input.length, ?_, ?_⟩
    · cases hfinishes with
      | still => exact hlength
      | implied =>
        rw [hlength, h.reads.nesting_input]
        exact Nesting.tiles_autoCloseEvents _ _
    · rw [hinput]
      exact ⟨rfl, Nat.le_refl _, hlength.symm⟩

theorem kept_tilesRead (input : Bytes) (settings : Settings) :
    Kept (TilesRead input settings) where
  mode := fun mode h => ⟨h.reads.mode mode, h.cursor, h.tiles, h.start, h.done⟩
  fills := TilesRead.fills
  deliver := by
    intro events s event queue h hq
    refine ⟨h.reads.deliver queue event, h.cursor, ?_, h.start, h.done⟩
    rw [known_deliver hq]
    exact h.tiles

/-- Whatever calls are made on the stream of a document, the spans of the events handed out tile the
document from its beginning on, and their source text is the document up to where they stop. Once the
stream has ended without an error, that is the whole document. -/
theorem events_tile_document (input : Bytes) (settings : Settings) (calls : List Call) :
    let answers := ((ofInput input settings).run calls).1
    let spans := (delivered answers).map (·.event.span)
    ∃ stop, stop ≤ input.length ∧ Tiles 0 spans stop ∧
      spans.flatMap (·.slice input) = input.take stop ∧
      ((∀ e, .error e ∉ answers) → .ok none ∈ answers →
        stop = input.length ∧ spans.flatMap (·.slice input) = input) := by
  intro answers spans
  obtain ⟨t, ht, -, hend⟩ := run_kept (kept_tilesRead input settings) calls
    (alive_ofInput input settings) (tilesRead_ofInput input settings)
  have hlength : t.tokens.cursor.offset + t.tokens.cursor.rest.length = input.length := by
    simpa [Cursor.start] using ht.cursor.length
  have htiles := ht.tiles
  rw [known, List.map_append, List.map_map] at htiles
  obtain ⟨stop, hspans, hqueue⟩ := (tiles_append _ _).1 htiles
  have hstop : stop ≤ input.length := by
    have := hqueue.le
    omega
  have hsource : spans.flatMap (·.slice input) = input.take stop := by
    have htake := hspans.flatMap_slice hstop
    rw [List.drop_zero, Nat.sub_zero] at htake
    exact htake
  refine ⟨stop, hstop, hspans, hsource, ?_⟩
  intro hno hnone
  obtain ⟨hdone, hempty⟩ := (hend hno).2 hnone
  have hlast : stop = input.length := by
    rw [hempty] at hqueue
    rw [ht.done hdone] at hlength
    exact hqueue.trans hlength
  refine ⟨hlast, ?_⟩
  rw [hsource, hlast, List.take_length]

end EventStream

end MarkupStream
