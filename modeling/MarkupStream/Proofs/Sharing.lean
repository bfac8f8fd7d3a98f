import Mathlib.Logic.Relation
import MarkupStream.Selector.Sharing

/-!
A shared cache is transparent: whatever its clients do at the same time, each call is answered with what
the compilation of its own request comes to. An entry and a call hold their resolver, so no other
resolver gets its identity as long as it stands in a key, and equal keys mean equal requests.
-/
namespace MarkupStream.Selector

namespace Cache

variable {σ : Type} {lru : Lru σ} {c next : Cache lru} {key : Key} {entry : Entry}

theorem without_subset (key : Key) (entries : List Entry) : without key entries ⊆ entries :=
  List.filter_sublist.subset

theorem length_without_lt {entries : List Entry} (h : entry ∈ entries) (hkey : entry.key = key) :
    (without key entries).length < entries.length := by
  refine List.length_filter_lt_length_iff_exists.2 ⟨entry, h, ?_⟩
  simp [hkey]

variable (hlru : lru.Lawful)

include hlru

/-- An entry that is found has the key, and only the order of the entries changes. -/
theorem lookup_eq_some (h : c.lookup key = some (entry, next)) :
    entry ∈ c.entries ∧ entry.key = key ∧ next.capacity = c.capacity ∧
      next.entries ⊆ c.entries ∧ next.entries.length ≤ c.entries.length := by
  obtain ⟨⟨found, store⟩, hfound, heq⟩ := Option.map_eq_some_iff.1 h
  obtain ⟨rfl, rfl⟩ := Prod.mk.inj heq
  obtain ⟨hmem, hkey, hentries, hcapacity⟩ := hlru.get?_eq_some hfound
  have hnext : ({ c with store } : Cache lru).entries = found :: without key c.entries := hentries
  refine ⟨hmem, hkey, hcapacity, ?_, ?_⟩
  all_goals rw [hnext]
  · exact List.cons_subset.2 ⟨hmem, without_subset key c.entries⟩
  · exact length_without_lt hmem hkey

theorem lookup_eq_none : c.lookup key = none ↔ ∀ entry ∈ c.entries, entry.key ≠ key :=
  Option.map_eq_none_iff.trans (hlru.get?_eq_none c.store key)

theorem mem_insert {other : Entry} (h : other ∈ (c.insert entry).entries) :
    other = entry ∨ other ∈ c.entries := by
  rw [insert, entries, hlru.entries_put] at h
  rcases List.mem_cons.1 (List.mem_of_mem_take h) with rfl | h
  · exact .inl rfl
  · exact .inr (without_subset _ _ h)

theorem entries_clear (c : Cache lru) : c.clear.entries = [] := hlru.entries_clear c.store

theorem length_insert_le (c : Cache lru) (entry : Entry) : (c.insert entry).entries.length ≤ c.capacity := by
  rw [insert, entries, hlru.entries_put]
  exact List.length_take_le _ _

end Cache

/-- A request is known by its key, if its resolver is known by its identity. -/
theorem Request.eq_of_key {a b : Request} (h : a.key = b.key)
    (hr : ∀ r q, a.resolver = some r → b.resolver = some q → r.identity = q.identity → r = q) :
    a = b := by
  obtain ⟨source, dialect, resolver⟩ := a
  obtain ⟨source', dialect', resolver'⟩ := b
  obtain ⟨rfl, rfl, hid⟩ := Cache.Key.mk.inj h
  cases resolver with
  | none =>
    cases resolver' with
    | none => rfl
    | some q => cases hid
  | some r =>
    cases resolver' with
    | none => cases hid
    | some q => rw [hr r q rfl rfl (Option.some.inj hid)]

/-- The entry holds the resolver of some request, and what that request compiles to. -/
def Cache.Entry.IsCompilation (entry : Cache.Entry) : Prop :=
  ∃ request : Request, entry.key = request.key ∧ entry.resolver = request.resolver ∧
    request.compile = .ok entry.selector

namespace SharedCache

variable {σ : Type} {lru : Lru σ} {w next : SharedCache lru} {r : SharedResolver} {request : Request}

section Holders

theorem holds_of_entry {entry : Cache.Entry} (h : entry ∈ w.cache.entries)
    (hr : entry.resolver = some r) : w.Holds r := .inr (.inr ⟨entry, h, hr⟩)

/-- Entries that a call leaves in the cache hold what was held before. -/
theorem holds_keep (hlru : lru.Lawful) {i : Nat} (h : w.calls[i]? = some (.compiling request)) {entry : Cache.Entry}
    (hentry : entry ∈ (w.cache.keep request request.compile).entries)
    (hr : entry.resolver = some r) : w.Holds r := by
  cases hcompile : request.compile with
  | error e =>
    rw [hcompile] at hentry
    exact holds_of_entry hentry hr
  | ok selector =>
    rw [hcompile] at hentry
    rcases Cache.mem_insert hlru hentry with rfl | hentry
    · exact .inr (.inl ⟨request, List.mem_of_getElem? h, hr⟩)
    · exact holds_of_entry hentry hr

/-- No step but the creation of a resolver makes one live that did not live before. -/
theorem Step.holds (hlru : lru.Lawful) (h : w.Step next) :
    (∀ r, next.Holds r → w.Holds r) ∨
      ∃ new, (∀ other, w.Holds other → other.identity ≠ new.identity) ∧
        ∀ r, next.Holds r → r = new ∨ w.Holds r := by
  cases h with
  | create new hnew =>
    refine .inr ⟨new, hnew, ?_⟩
    rintro r (hr | hr)
    · rcases List.mem_cons.1 hr with rfl | hr
      · exact .inl rfl
      · exact .inr (.inl hr)
    · exact .inr (.inr hr)
  | share hshare =>
    refine .inl ?_
    rintro r (hr | hr)
    · rcases List.mem_cons.1 hr with rfl | hr
      · exact .inl hshare
      · exact .inl hr
    · exact .inr hr
  | drop i =>
    refine .inl ?_
    rintro r (hr | hr)
    · exact .inl (List.mem_of_mem_eraseIdx hr)
    · exact .inr hr
  | hit _ hlookup =>
    obtain ⟨-, -, -, hsubset, -⟩ := Cache.lookup_eq_some hlru hlookup
    refine .inl ?_
    rintro r (hr | ⟨request, hcall, hr⟩ | ⟨entry, hentry, hr⟩)
    · exact .inl hr
    · have hcall : .compiling request ∈ w.calls := by simpa [SharedCache.hit] using hcall
      exact .inr (.inl ⟨request, hcall, hr⟩)
    · exact holds_of_entry (hsubset hentry) hr
  | @miss request hheld _ =>
    refine .inl ?_
    rintro r (hr | ⟨request', hcall, hr⟩ | hr)
    · exact .inl hr
    · have hcall : .compiling request' ∈ w.calls ∨ request' = request := by
        simpa [SharedCache.miss] using hcall
      rcases hcall with hcall | rfl
      · exact .inr (.inl ⟨request', hcall, hr⟩)
      · exact .inl (hheld r hr)
    · exact .inr (.inr hr)
  | finish hcall =>
    refine .inl ?_
    rintro r (hr | ⟨request', hother, hr⟩ | ⟨entry, hentry, hr⟩)
    · exact .inl hr
    · rcases List.mem_or_eq_of_mem_set hother with hother | heq
      · exact .inr (.inl ⟨request', hother, hr⟩)
      · cases heq
    · exact holds_keep hlru hcall hentry hr
  | clear =>
    refine .inl ?_
    rintro r (hr | hr | ⟨entry, hentry, -⟩)
    · exact .inl hr
    · exact .inr (.inl hr)
    · rw [Cache.entries_clear hlru] at hentry
      cases hentry

end Holders

/-- What every step keeps. -/
structure Sound (capacity : Nat) (w : SharedCache lru) : Prop where
  apart : ∀ r q, w.Holds r → w.Holds q → r.identity = q.identity → r = q
  compiled : ∀ entry ∈ w.cache.entries, entry.IsCompilation
  answers : ∀ request answer, .answered request answer ∈ w.calls → answer = request.compile
  capacity_eq : w.cache.capacity = max 1 capacity
  length_le : w.cache.entries.length ≤ w.cache.capacity

theorem sound_ofCapacity (hlru : lru.Lawful) (capacity : Nat) :
    (ofCapacity capacity : SharedCache lru).Sound capacity := by
  have hentries : (ofCapacity capacity : SharedCache lru).cache.entries = [] := hlru.entries_ofCapacity _
  refine ⟨?_, ?_, ?_, (hlru.capacity_ofCapacity _).trans (Nat.max_comm capacity 1), ?_⟩
  · rintro r q (hr | ⟨request, hr, -⟩ | ⟨entry, hr, -⟩)
    · cases hr
    · cases hr
    · rw [hentries] at hr
      cases hr
  · rw [hentries]
    exact List.forall_mem_nil _
  · exact fun _ _ hcall => absurd hcall List.not_mem_nil
  · rw [hentries]
    exact Nat.zero_le _

/-- Living resolvers stay apart, since a new one gets an identity of its own. -/
theorem Sound.apart_step (hlru : lru.Lawful) {capacity : Nat} (h : w.Sound capacity) (hstep : w.Step next) :
    ∀ r q, next.Holds r → next.Holds q → r.identity = q.identity → r = q := by
  intro r q hr hq hid
  rcases hstep.holds hlru with hholds | ⟨new, hnew, hholds⟩
  · exact h.apart r q (hholds r hr) (hholds q hq) hid
  · rcases hholds r hr with rfl | hr
    · rcases hholds q hq with rfl | hq
      · rfl
      · exact absurd hid.symm (hnew q hq)
    · rcases hholds q hq with rfl | hq
      · exact absurd hid (hnew r hr)
      · exact h.apart r q hr hq hid

/-- An entry that has the key of a request, made with living resolvers, is the compilation of that very
request. -/
theorem Sound.selector_eq {capacity : Nat} (h : w.Sound capacity) {entry : Cache.Entry}
    (hentry : entry ∈ w.cache.entries) (hkey : entry.key = request.key)
    (hheld : ∀ r, request.resolver = some r → r ∈ w.handles) :
    request.compile = .ok entry.selector := by
  obtain ⟨kept, hkept, hresolver, hcompile⟩ := h.compiled entry hentry
  have hsame : kept = request := by
    refine Request.eq_of_key (hkept.symm.trans hkey) fun r q hr hq => h.apart r q ?_ ?_
    · exact holds_of_entry hentry (hresolver.trans hr)
    · exact .inl (hheld q hq)
  rw [← hsame]
  exact hcompile

theorem Sound.compiled_keep (hlru : lru.Lawful) {capacity : Nat} (h : w.Sound capacity) (request : Request) :
    ∀ entry ∈ (w.cache.keep request request.compile).entries, entry.IsCompilation := by
  intro entry hentry
  cases hcompile : request.compile with
  | error e =>
    rw [hcompile] at hentry
    exact h.compiled entry hentry
  | ok selector =>
    rw [hcompile] at hentry
    rcases Cache.mem_insert hlru hentry with rfl | hentry
    · exact ⟨request, rfl, rfl, hcompile⟩
    · exact h.compiled entry hentry

theorem Sound.length_keep_le (hlru : lru.Lawful) {capacity : Nat} (h : w.Sound capacity) (request : Request) :
    (w.cache.keep request request.compile).capacity = w.cache.capacity ∧
      (w.cache.keep request request.compile).entries.length ≤ w.cache.capacity := by
  cases request.compile with
  | error e => exact ⟨rfl, h.length_le⟩
  | ok selector => exact ⟨hlru.capacity_put _ _, Cache.length_insert_le hlru _ _⟩

theorem Sound.step (hlru : lru.Lawful) {capacity : Nat} (h : w.Sound capacity) (hstep : w.Step next) :
    next.Sound capacity := by
  have hapart := h.apart_step hlru hstep
  cases hstep with
  | create | share | drop =>
    exact ⟨hapart, h.compiled, h.answers, h.capacity_eq, h.length_le⟩
  | @hit request entry cache hheld hlookup =>
    obtain ⟨hentry, hkey, hcapacity, hsubset, hlength⟩ := Cache.lookup_eq_some hlru hlookup
    refine ⟨hapart, fun other hother => h.compiled other (hsubset hother), ?_,
      hcapacity.trans h.capacity_eq, ?_⟩
    · intro other answer hcall
      rcases List.mem_append.1 hcall with hcall | hcall
      · exact h.answers other answer hcall
      · obtain ⟨rfl, rfl⟩ := CacheCall.answered.inj (List.mem_singleton.1 hcall)
        exact (h.selector_eq hentry hkey hheld).symm
    · have hle := h.length_le
      simp only [hit, hcapacity]
      omega
  | miss =>
    refine ⟨hapart, h.compiled, ?_, h.capacity_eq, h.length_le⟩
    intro other answer hcall
    have hcall : .answered other answer ∈ w.calls := by simpa [miss] using hcall
    exact h.answers other answer hcall
  | @finish i request _ =>
    obtain ⟨hcapacity, hlength⟩ := h.length_keep_le hlru request
    refine ⟨hapart, h.compiled_keep hlru request, ?_, hcapacity.trans h.capacity_eq, ?_⟩
    · intro other answer hcall
      rcases List.mem_or_eq_of_mem_set hcall with hcall | heq
      · exact h.answers other answer hcall
      · obtain ⟨rfl, rfl⟩ := CacheCall.answered.inj heq
        rfl
    · simp only [finish, hcapacity]
      exact hlength
  | clear =>
    have hentries := Cache.entries_clear hlru w.cache
    refine ⟨hapart, ?_, h.answers, (hlru.capacity_clear _).trans h.capacity_eq, ?_⟩
    all_goals rw [hentries]
    · exact List.forall_mem_nil _
    · exact Nat.zero_le _

theorem Reachable.sound (hlru : lru.Lawful) {capacity : Nat} (h : Reachable capacity w) : w.Sound capacity := by
  induction h with
  | start => exact sound_ofCapacity hlru capacity
  | step _ hstep ih => exact ih.step hlru hstep

/-- Only a call that is answered with a selector touches the cache. -/
theorem Step.cache_eq (h : w.Step next) {i : Nat} {call : CacheCall}
    (hcall : next.calls[i]? = some call) (hnew : w.calls[i]? ≠ some call)
    (hnone : call.selector? = none) : next.cache = w.cache := by
  cases h with
  | create | share | drop | clear => exact absurd hcall hnew
  | miss => rfl
  | hit _ _ =>
    simp only [SharedCache.hit, List.getElem?_append] at hcall
    split at hcall
    · exact absurd hcall hnew
    · rw [List.mem_singleton.1 (List.mem_of_getElem? hcall)] at hnone
      cases hnone
  | @finish j request hcompiling =>
    by_cases hj : j = i
    · subst hj
      have hlt := (List.getElem?_eq_some_iff.1 hcompiling).1
      rw [SharedCache.finish, List.getElem?_set_self hlt] at hcall
      obtain rfl := Option.some.inj hcall
      cases hcompile : request.compile with
      | error e => rw [SharedCache.finish, hcompile]; rfl
      | ok selector =>
        rw [hcompile] at hnone
        cases hnone
    · rw [SharedCache.finish, List.getElem?_set_ne hj] at hcall
      exact absurd hcall hnew

/-- A call that nothing interrupts. -/
def called (w : SharedCache lru) (request : Request) : SharedCache lru :=
  let (answer, cache) := w.cache.get request.source request.dialect request.resolver
  { w with cache, calls := w.calls ++ [.answered request (answer.map (·.selector))] }

/-- An entry is found in one step, and otherwise two steps lead to the answer. -/
theorem steps_called (hheld : ∀ r, request.resolver = some r → r ∈ w.handles) :
    Relation.ReflTransGen Step w (w.called request) := by
  cases hlookup : w.cache.lookup request.key with
  | some found =>
    obtain ⟨entry, cache⟩ := found
    have hcalled : w.called request = w.hit request entry cache := by
      rw [Request.key] at hlookup
      simp [called, Cache.get, hlookup, hit, Except.map]
    rw [hcalled]
    exact .single (.hit hheld hlookup)
  | none =>
    have hcall : (w.miss request).calls[w.calls.length]? = some (.compiling request) := by
      simp [miss]
    have hcalled : w.called request = (w.miss request).finish w.calls.length request := by
      rw [Request.key] at hlookup
      simp only [called, Cache.get, hlookup, finish, miss, List.set_append_right _ _ (Nat.le_refl _),
        Nat.sub_self, List.set_cons_zero]
      rw [Request.compile]
      cases compile request.source request.dialect (request.resolver.map (·.resolve)) <;> rfl
    rw [hcalled]
    exact .head (.miss hheld hlookup) (.single (.finish hcall))

/-- The shared cache is transparent. Whatever calls run at the same time, however often it is cleared and
whatever resolvers come and go, every answer is the compilation of the request itself and every entry
is the compilation of its key; there are no more entries than there is room for, and a step of a call
that does not end with a selector leaves the cache alone. A call that compiles can be answered at any
time, and one that is begun while nothing else happens is answered as by a cache of its own. -/
theorem calls_compile {σ : Type} {lru : Lru σ} (hlru : lru.Lawful) {capacity : Nat} {w : SharedCache lru}
    (h : Reachable capacity w) :
    (∀ request answer, .answered request answer ∈ w.calls → answer = request.compile) ∧
      (∀ entry ∈ w.cache.entries, entry.IsCompilation) ∧
      w.cache.size ≤ max 1 capacity ∧
      (∀ next, w.Step next → ∀ (i : Nat) (call : CacheCall), next.calls[i]? = some call →
        w.calls[i]? ≠ some call → call.selector? = none → next.cache = w.cache) ∧
      (∀ (i : Nat) request, w.calls[i]? = some (.compiling request) →
        ∃ next, w.Step next ∧ next.calls[i]? = some (.answered request request.compile)) ∧
      ∀ request : Request, (∀ r, request.resolver = some r → r ∈ w.handles) →
        Relation.ReflTransGen Step w (w.called request) := by
  have hsound := h.sound hlru
  refine ⟨hsound.answers, hsound.compiled, ?_, fun next hstep i call => hstep.cache_eq, ?_,
    fun request hheld => steps_called hheld⟩
  · rw [Cache.size, ← hsound.capacity_eq]
    exact hsound.length_le
  · intro i request hcall
    refine ⟨w.finish i request, .finish hcall, ?_⟩
    exact List.getElem?_set_self (List.getElem?_eq_some_iff.1 hcall).1

/-- Two resolvers of one identity, which do not live at the same time. -/
def byClass : SharedResolver := ⟨0, fun name => "class=" ++ quote name⟩

def byId : SharedResolver := ⟨0, fun name => "id=" ++ quote name⟩

def cardRequest (r : SharedResolver) : Request := ⟨"%card", .html, some r⟩

/-- The first resolver is gone before its call has been answered, and the entry that kept it is cleared.
The second one gets its identity, and the answer is none the less its own. -/
theorem recycled_compile :
    Recent.lru.Lawful ∧ ∃ w : SharedCache Recent.lru, Reachable 0 w ∧
      w.calls = [.answered (cardRequest byClass) (cardRequest byClass).compile,
        .answered (cardRequest byId) (cardRequest byId).compile] ∧
      (cardRequest byClass).key = (cardRequest byId).key ∧
      ∀ request answer, .answered request answer ∈ w.calls → answer = request.compile := by
  let start : Cache Recent.lru := .ofCapacity 0
  have hfirst : Reachable 0 ⟨start, [], [.compiling (cardRequest byClass)]⟩ := by
    have hcreate : Reachable 0 ⟨start, [byClass], []⟩ := by
      apply Reachable.start.step
      apply Step.create byClass
      rintro other (hother | ⟨_, hother, -⟩ | ⟨_, hother, -⟩) <;> cases hother
    have hmiss : Reachable 0 ⟨start, [byClass], [.compiling (cardRequest byClass)]⟩ := by
      apply hcreate.step
      apply Step.miss _ rfl
      rintro r hr
      exact List.mem_singleton.2 (Option.some.inj hr).symm
    exact hmiss.step (.drop 0)
  have hcleared : ∃ cache : Cache Recent.lru, cache.entries = [] ∧
      Reachable 0 ⟨cache, [], [.answered (cardRequest byClass) (cardRequest byClass).compile]⟩ := by
    refine ⟨_, ?_, (hfirst.step (.finish (i := 0) rfl)).step .clear⟩
    rfl
  obtain ⟨cache, hentries, hcleared⟩ := hcleared
  have hsecond : Reachable 0 ⟨cache, [byId],
      [.answered (cardRequest byClass) (cardRequest byClass).compile,
        .compiling (cardRequest byId)]⟩ := by
    have hcreate : Reachable 0
        ⟨cache, [byId], [.answered (cardRequest byClass) (cardRequest byClass).compile]⟩ := by
      apply hcleared.step
      apply Step.create byId
      rintro other (hother | ⟨_, hother, -⟩ | ⟨_, hother, -⟩)
      · cases hother
      · cases List.mem_singleton.1 hother
      · rw [hentries] at hother
        cases hother
    apply hcreate.step
    apply Step.miss
    · rintro r hr
      exact List.mem_singleton.2 (Option.some.inj hr).symm
    · refine (Cache.lookup_eq_none Recent.lawful_lru).2 ?_
      rw [hentries]
      exact List.forall_mem_nil _
  have hanswered := hsecond.step (.finish (i := 1) rfl)
  exact ⟨Recent.lawful_lru, _, hanswered, rfl, rfl, (calls_compile Recent.lawful_lru hanswered).1⟩

end SharedCache

end MarkupStream.Selector
