import Mathlib
import LatexPreview.Proofs.Compile.Keys

/-!
# The cache over many calls

Documents are compiled one after the other, with one cache in which nothing is forgotten.  The calls
may differ in everything: the source, the command, the endpoint and what the service replies.

* `CompileCall` is a call, `cacheAfter` the cache after a row of calls
* `CompileCall.run_cases` is all that a call can do
* `find?_cacheAfter`: the cache holds what earlier calls have compiled, and nothing else
* `cached_iff_compiled`: a call is answered from the cache if and only if its document has been
  compiled before
-/

namespace LatexPreview

/-- A call of the service, with the reply that a request would get. -/
structure CompileCall where
  options : CompileOptions
  reply : Reply
  latex : Text

namespace CompileCall

/-- The document that is compiled. -/
def source (c : CompileCall) : Text := ensureClass c.latex

/-- What the document is kept under. -/
def key (c : CompileCall) : CacheKey := .of c.source c.options.command

/-- What happens with some cache. -/
def run (c : CompileCall) (cache : Cache) : Except UnknownScheme Compilation :=
  compile c.options (some cache) c.reply c.latex

/-- The cache afterwards. -/
def leave (c : CompileCall) (cache : Cache) : Cache :=
  match c.run cache with
  | .ok r => r.cache.getD cache
  | .error _ => cache

/-- The service compiles the document. -/
def Compiles (c : CompileCall) (cache : Cache) (pdf : Bytes) : Prop :=
  ∃ r, c.run cache = .ok r ∧ r.result = .success pdf false

end CompileCall

/-- The cache after a row of calls. -/
def cacheAfter (calls : List CompileCall) : Cache := calls.foldl (fun cache c => c.leave cache) []

/-- Some call in a row has had a document compiled. -/
def CompiledIn (calls : List CompileCall) (key : CacheKey) (pdf : Bytes) : Prop :=
  ∃ front c, front ++ [c] <+: calls ∧ c.key = key ∧ c.Compiles (cacheAfter front) pdf

variable {cache : Cache} {calls : List CompileCall} {key : CacheKey} {pdf : Bytes}

theorem cacheAfter_concat (calls : List CompileCall) (c : CompileCall) :
    cacheAfter (calls ++ [c]) = c.leave (cacheAfter calls) := List.foldl_concat ..

/-! ## One call -/

theorem Reply.result_ne_cached (r : Reply) (pdf : Bytes) : r.result ≠ .success pdf true := by
  cases r with
  | content body type =>
    simp only [result]
    split <;> simp
  | refusal status body => simp [result]
  | unreachable reason => simp [result]

/-- An entry that is added to a cache hides those with the same key. -/
theorem Cache.find?_concat (cache : Cache) (e : CacheEntry) (key : CacheKey) :
    Cache.find? (cache ++ [e]) key = if e.key = key then some e.pdf else cache.find? key := by
  by_cases h : e.key = key
  · simp [find?, h]
  · simp [find?, h]

namespace CompileCall

/-- A call finds its document in the cache, or is refused, or else asks the service. -/
theorem run_cases (c : CompileCall) (cache : Cache) :
    (∃ pdf message, cache.find? c.key = some pdf ∧
      c.run cache = .ok ⟨.success pdf true, message, none, some cache⟩) ∨
    (∃ e, cache.find? c.key = none ∧ c.run cache = .error e) ∨
    (∃ address message, cache.find? c.key = none ∧
      c.run cache = .ok ⟨c.reply.result, message, some (.ofSource address c.options c.source),
        some (cache.learn c.key c.options.expiry c.reply.result)⟩) := by
  have hfind : (some cache).bind (·.find? (.of c.source c.options.command)) = cache.find? c.key := rfl
  cases hstored : cache.find? c.key with
  | some pdf =>
    have hplan : plan c.options (some cache) c.source = .ok (.stored pdf) := by
      rw [plan, hfind, hstored]
    refine .inl ⟨pdf, (CompilePlan.stored pdf).message c.options, rfl, ?_⟩
    change plan c.options (some cache) c.source >>= _ = _
    rw [hplan]
    rfl
  | none =>
    have hplan : plan c.options (some cache) c.source =
        (address? c.options.endpoint).map fun address => .ask (.ofSource address c.options c.source) := by
      rw [plan, hfind, hstored]
    cases haddress : address? c.options.endpoint with
    | error e =>
      refine .inr (.inl ⟨e, rfl, ?_⟩)
      change plan c.options (some cache) c.source >>= _ = _
      rw [hplan, haddress]
      rfl
    | ok address =>
      let request := Request.ofSource address c.options c.source
      refine .inr (.inr ⟨address, (CompilePlan.ask request).message c.options, rfl, ?_⟩)
      change plan c.options (some cache) c.source >>= _ = _
      rw [hplan, haddress]
      rfl

/-- What the service compiles was not in the cache, and is there afterwards. -/
theorem Compiles.find?_leave {c : CompileCall} (h : c.Compiles cache pdf) (key : CacheKey) :
    cache.find? c.key = none ∧
      (c.leave cache).find? key = if c.key = key then some pdf else cache.find? key := by
  obtain ⟨r, hrun, hresult⟩ := h
  rcases c.run_cases cache with
    ⟨pdf', message, -, hcase⟩ | ⟨e, -, hcase⟩ | ⟨address, message, hnone, hcase⟩
  · obtain rfl := Except.ok.inj (hrun.symm.trans hcase)
    simp at hresult
  · simp [hcase] at hrun
  · obtain rfl := Except.ok.inj (hrun.symm.trans hcase)
    refine ⟨hnone, ?_⟩
    have hreply : c.reply.result = .success pdf false := hresult
    rw [leave, hcase, hreply]
    exact cache.find?_concat _ key

/-- A call that has nothing compiled leaves the cache as it is. -/
theorem leave_eq {c : CompileCall} (h : ∀ pdf, ¬ c.Compiles cache pdf) : c.leave cache = cache := by
  rcases c.run_cases cache with ⟨pdf, message, -, hcase⟩ | ⟨e, -, hcase⟩ | ⟨address, message, -, hcase⟩
  · rw [leave, hcase]
    rfl
  · rw [leave, hcase]
  · rw [leave, hcase]
    cases hresult : c.reply.result with
    | failure kind log => rfl
    | success pdf cached =>
      cases cached with
      | true => exact absurd hresult (c.reply.result_ne_cached pdf)
      | false => exact absurd ⟨_, hcase, hresult⟩ (h pdf)

/-- The cache answers a call if and only if it holds the document. -/
theorem exists_cached_iff (c : CompileCall) (cache : Cache) (pdf : Bytes) :
    (∃ r, c.run cache = .ok r ∧ r.result = .success pdf true) ↔ cache.find? c.key = some pdf := by
  rcases c.run_cases cache with ⟨pdf', message, hfind, hcase⟩ | ⟨e, hfind, hcase⟩ |
    ⟨address, message, hfind, hcase⟩
  · simp [hfind, hcase]
  · simp [hfind, hcase]
  · simp [hfind, hcase, c.reply.result_ne_cached]

end CompileCall

/-! ## Rows of calls -/

theorem compiledIn_concat {c : CompileCall} :
    CompiledIn (calls ++ [c]) key pdf ↔
      CompiledIn calls key pdf ∨ c.key = key ∧ c.Compiles (cacheAfter calls) pdf := by
  constructor
  · rintro ⟨front, d, hfront, hkey, hd⟩
    rcases List.prefix_concat_iff.1 hfront with heq | hfront
    · obtain ⟨rfl, hlast⟩ := List.append_inj' heq rfl
      obtain rfl := List.singleton_inj.1 hlast
      exact .inr ⟨hkey, hd⟩
    · exact .inl ⟨front, d, hfront, hkey, hd⟩
  · rintro (⟨front, d, hfront, hkey, hd⟩ | ⟨hkey, hc⟩)
    · exact ⟨front, d, hfront.trans (List.prefix_append ..), hkey, hd⟩
    · exact ⟨calls, c, List.prefix_rfl, hkey, hc⟩

/-- The cache holds what has been compiled, and nothing else. -/
theorem find?_cacheAfter (calls : List CompileCall) (key : CacheKey) (pdf : Bytes) :
    (cacheAfter calls).find? key = some pdf ↔ CompiledIn calls key pdf := by
  induction calls using List.reverseRecOn with
  | nil =>
    have hnone : ¬ CompiledIn [] key pdf := by
      rintro ⟨front, c, hfront, -⟩
      simp at hfront
    simp [cacheAfter, Cache.find?, hnone]
  | append_singleton calls c ih =>
    rw [compiledIn_concat, cacheAfter_concat, ← ih]
    by_cases hc : ∃ pdf', c.Compiles (cacheAfter calls) pdf'
    · obtain ⟨pdf', hpdf'⟩ := hc
      obtain ⟨hnone, hleave⟩ := hpdf'.find?_leave key
      have hsame : c.Compiles (cacheAfter calls) pdf ↔ pdf' = pdf := by
        constructor
        · rintro ⟨r, hrun, hresult⟩
          obtain ⟨r', hrun', hresult'⟩ := hpdf'
          obtain rfl := Except.ok.inj (hrun.symm.trans hrun')
          exact (CompileResult.success.inj (hresult'.symm.trans hresult)).1
        · rintro rfl
          exact hpdf'
      rw [hleave, hsame]
      by_cases hkey : c.key = key
      · subst hkey
        simp [hnone]
      · simp [hkey]
    · have hnot : ∀ pdf', ¬ c.Compiles (cacheAfter calls) pdf' := fun pdf' h => hc ⟨pdf', h⟩
      rw [CompileCall.leave_eq hnot]
      simp [hnot pdf]

/-- After a row of calls, with digests that tell the documents apart:
* a call is answered from the cache, and with a PDF, if and only if an earlier call has had the same
  document compiled with the same command, and got that PDF from the service;
* it then sends no request;
* a call that fails or is refused leaves the cache as it is. -/
theorem cached_iff_compiled (calls : List CompileCall) (call : CompileCall)
    (h : ∀ earlier ∈ calls, Distinguished earlier.source call.source) :
    (∀ pdf, (∃ r, call.run (cacheAfter calls) = .ok r ∧ r.result = .success pdf true) ↔
      ∃ front earlier, front ++ [earlier] <+: calls ∧ earlier.source = call.source ∧
        earlier.options.command = call.options.command ∧ earlier.Compiles (cacheAfter front) pdf) ∧
    (∀ r pdf, call.run (cacheAfter calls) = .ok r → r.result = .success pdf true → r.request = none) ∧
    ((∃ e, call.run (cacheAfter calls) = .error e) ∨
        (∃ r kind log, call.run (cacheAfter calls) = .ok r ∧ r.result = .failure kind log) →
      cacheAfter (calls ++ [call]) = cacheAfter calls) := by
  refine ⟨fun pdf => ?_, fun r pdf hrun hresult => ?_, fun hfailed => ?_⟩
  · rw [call.exists_cached_iff, find?_cacheAfter, CompiledIn]
    refine exists_congr fun front => exists_congr fun earlier => and_congr_right fun hfront => ?_
    have hmem : earlier ∈ calls := hfront.subset (List.mem_append_right _ (List.mem_singleton_self _))
    rw [← and_assoc]
    exact and_congr_left fun _ => CacheKey.of_eq_iff (h earlier hmem)
  · rcases call.run_cases (cacheAfter calls) with ⟨pdf', message, -, hcase⟩ | ⟨e, -, hcase⟩ |
      ⟨address, message, -, hcase⟩
    · obtain rfl := Except.ok.inj (hrun.symm.trans hcase)
      rfl
    · simp [hcase] at hrun
    · obtain rfl := Except.ok.inj (hrun.symm.trans hcase)
      exact absurd hresult (call.reply.result_ne_cached pdf)
  · rw [cacheAfter_concat]
    refine CompileCall.leave_eq fun pdf hcompiles => ?_
    obtain ⟨r, hrun, hresult⟩ := hcompiles
    rcases hfailed with ⟨e, herror⟩ | ⟨r', kind, log, hrun', hfailure⟩
    · simp [herror] at hrun
    · obtain rfl := Except.ok.inj (hrun.symm.trans hrun')
      simp [hfailure] at hresult

/-- A document is found that has been compiled as a snippet, although the service is out of reach. -/
theorem cached_iff_compiled_snippet :
    let pdf : Bytes := [0x25]
    let first : CompileCall := ⟨{}, .content pdf (some "application/pdf".toList), ['x']⟩
    let second : CompileCall := ⟨{ endpoint := ['z'] }, .unreachable [], ensureClass ['x']⟩
    first.latex ≠ second.latex ∧ first.source = second.source ∧
      ∃ r, second.run (cacheAfter [first]) = .ok r ∧ r.result = .success pdf true ∧ r.request = none := by
  intro pdf first second
  have hsource : first.source = second.source := by decide +kernel
  have hdistinguished : ∀ earlier ∈ [first], Distinguished earlier.source second.source := by
    intro earlier hearlier _
    rw [List.mem_singleton.1 hearlier, hsource]
  obtain ⟨hcached, hrequest, -⟩ := cached_iff_compiled [first] second hdistinguished
  obtain ⟨r, hrun, hresult⟩ := (hcached pdf).2 ⟨[], first, List.prefix_rfl, hsource, rfl, _, rfl, rfl⟩
  exact ⟨by decide +kernel, hsource, r, hrun, hresult, hrequest r pdf hrun hresult⟩

end LatexPreview
