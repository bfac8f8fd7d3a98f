import MarkupStream.Selector.Cache

/-!
A cache that many clients share. A call looks up its key in one step; if there is no entry, it compiles
while others go on, and puts what it compiled into the cache in a second step. Meanwhile there may be
any other calls, the cache may be cleared, and resolvers come and go. A resolver lives as long as a
client, a call under way or an entry of the cache holds it, and a new one may get any identity that no
living one has.
-/
namespace MarkupStream.Selector

/-- What a call asks for. -/
structure Request where
  source : String
  dialect : Dialect
  resolver : Option SharedResolver

namespace Request

def key (request : Request) : Cache.Key :=
  Cache.keyOf request.source request.dialect request.resolver

/-- What the request comes to without a cache. -/
def compile (request : Request) : Except SelectorError Selector :=
  Selector.compile request.source request.dialect (request.resolver.map (·.resolve))

end Request

variable {σ : Type} {lru : Lru σ}

/-- The cache after a compilation, which is kept unless it failed. -/
def Cache.keep (c : Cache lru) (request : Request) : Except SelectorError Selector → Cache lru
  | .ok selector =>
    { c with compiled := c.compiled + 1 }.insert
      ⟨request.key, selector, c.compiled, request.resolver⟩
  | .error _ => c

/-- A call that found no entry and compiles, or one that has been answered. -/
inductive CacheCall where
  | compiling (request : Request)
  | answered (request : Request) (answer : Except SelectorError Selector)

/-- The selector that a call has been answered with. -/
def CacheCall.selector? : CacheCall → Option Selector
  | answered _ (.ok selector) => some selector
  | _ => none

/-- The cache, the handles on resolvers that clients have, and all calls in the order in which they
were begun. -/
structure SharedCache {σ : Type} (lru : Lru σ) where
  cache : Cache lru
  handles : List SharedResolver
  calls : List CacheCall

namespace SharedCache

def ofCapacity (capacity : Nat) : SharedCache lru := ⟨.ofCapacity capacity, [], []⟩

/-- Something holds the resolver: a client, a call under way or an entry. -/
def Holds (w : SharedCache lru) (r : SharedResolver) : Prop :=
  r ∈ w.handles ∨ (∃ request, .compiling request ∈ w.calls ∧ request.resolver = some r) ∨
    ∃ entry ∈ w.cache.entries, entry.resolver = some r

/-- A call that is answered by an entry. -/
def hit (w : SharedCache lru) (request : Request) (entry : Cache.Entry) (cache : Cache lru) : SharedCache lru :=
  { w with cache, calls := w.calls ++ [.answered request (.ok entry.selector)] }

def miss (w : SharedCache lru) (request : Request) : SharedCache lru :=
  { w with calls := w.calls ++ [.compiling request] }

/-- The second step of the call of an index. -/
def finish (w : SharedCache lru) (i : Nat) (request : Request) : SharedCache lru :=
  { w with
    cache := w.cache.keep request request.compile
    calls := w.calls.set i (.answered request request.compile) }

/-- What can happen next. A client has handles on the resolvers that it makes calls with. -/
inductive Step (w : SharedCache lru) : SharedCache lru → Prop
  | create (r : SharedResolver) : (∀ other, w.Holds other → other.identity ≠ r.identity) →
      Step w { w with handles := r :: w.handles }
  | share {r : SharedResolver} : r ∈ w.handles → Step w { w with handles := r :: w.handles }
  | drop (i : Nat) : Step w { w with handles := w.handles.eraseIdx i }
  | hit {request : Request} {entry : Cache.Entry} {cache : Cache lru} :
      (∀ r, request.resolver = some r → r ∈ w.handles) →
      w.cache.lookup request.key = some (entry, cache) → Step w (w.hit request entry cache)
  | miss {request : Request} : (∀ r, request.resolver = some r → r ∈ w.handles) →
      w.cache.lookup request.key = none → Step w (w.miss request)
  | finish {i : Nat} {request : Request} : w.calls[i]? = some (.compiling request) →
      Step w (w.finish i request)
  | clear : Step w { w with cache := w.cache.clear }

/-- What a new cache and any steps lead to. -/
inductive Reachable (capacity : Nat) : SharedCache lru → Prop
  | start : Reachable capacity (ofCapacity capacity)
  | step {w next : SharedCache lru} : Reachable capacity w → w.Step next → Reachable capacity next

end SharedCache

end MarkupStream.Selector
