import Mathlib.Data.List.Induction
import Xidata.Library.Utf8
import Xidata.NodeSvr.Replies

/-!
The bodies of requests.  A chunk of a body is a buffer, and it is added to a string: it is
decoded as UTF-8 by itself.  The text that is parsed at the end is then the one that was sent
only if every chunk has whole characters.
-/

namespace Xidata.NodeSvr

/-- The text of a buffer. -/
def bufferToString (chunk : List UInt8) : String := String.ofList (Utf8.decode chunk)

def utf8Bytes (text : String) : List UInt8 := Utf8.encode text.toList

/-- A chunk that neither begins nor ends inside a character. -/
def WholeChunk (chunk : List UInt8) : Prop := ∃ part, chunk = utf8Bytes part

def Runtime.withBuffers (rt : Runtime) : Runtime := { rt with toText := bufferToString }

namespace Gateway

variable {rt : Runtime} {s : Gateway} {k : ℕ} {r : Request}

theorem wholeChunk_iff {chunk : List UInt8} :
    WholeChunk chunk ↔ ∃ part, chunk = Utf8.encode part := by
  constructor
  · rintro ⟨part, h⟩
    exact ⟨part.toList, h⟩
  · rintro ⟨part, h⟩
    exact ⟨String.ofList part, by rw [utf8Bytes, String.toList_ofList, h]⟩

theorem bodyText_withBuffers (chunks : List (List UInt8)) :
    bodyText rt.withBuffers chunks = String.ofList (chunks.flatMap Utf8.decode) := by
  induction chunks using List.reverseRecOn with
  | nil => rfl
  | append_singleton chunks chunk ih =>
      rw [bodyText_concat, ih, List.flatMap_append, List.flatMap_singleton, String.ofList_append]
      rfl

theorem bodyText_eq_iff {chunks : List (List UInt8)} {text : String}
    (h : chunks.flatten = utf8Bytes text) :
    bodyText rt.withBuffers chunks = text ↔ ∀ chunk ∈ chunks, WholeChunk chunk := by
  have hlist : bodyText rt.withBuffers chunks = text ↔
      chunks.flatMap Utf8.decode = text.toList := by
    rw [bodyText_withBuffers]
    constructor
    · rintro rfl
      rw [String.toList_ofList]
    · intro hsame
      rw [hsame, String.ofList_toList]
  rw [hlist, Utf8.flatMap_decode_eq_iff h]
  simp only [wholeChunk_iff]

/-- The text that is parsed at the end of a body is the one whose bytes have come exactly if
every chunk has whole characters, whatever comes for other requests in between. -/
theorem body_eq_sent_iff (config : Config) (es : List GatewayEvent) :
    let t := Rollback.run (Gateway.step rt.withBuffers) (start config) es
    let chunks := fun k => chunksOf k
      (Rollback.accepted (Gateway.step rt.withBuffers) (start config) es)
    ∀ (k : ℕ) (r : Request) (e : Exec) (text : String),
      t.requests[k]? = some r → r.route = .exec e → (chunks k).flatten = utf8Bytes text →
        (r.body = text ↔ ∀ chunk ∈ chunks k, WholeChunk chunk) ∧
          (t.alive = true → r.ended = false → t.step rt.withBuffers (.ended k) =
            .ok ({ t with requests := t.requests.set k { r with ended := true } }.onEnd
              rt.withBuffers k e r.body)) := by
  intro t chunks k r e text hr hroute hchunks
  refine ⟨?_, fun halive hended => ?_⟩
  · rw [(bodies_run rt.withBuffers config es k).2 r e hr hroute]
    exact bodyText_eq_iff hchunks
  · rw [Gateway.step, if_neg (by simpa using halive), hr]
    dsimp only
    rw [if_neg (by simpa using hended), hroute]

/-- What `JSON` does with the texts that are used here. -/
def memoRuntime : Runtime where
  toText := bufferToString
  parse text :=
    if text = "\x7b\"memo\":\"转\"\x7d" then some (.obj [("memo", .str "转")])
    else if text = "\x7b\"memo\":\"\uFFFD\uFFFD\uFFFD\"\x7d" then
      some (.obj [("memo", .str "\uFFFD\uFFFD\uFFFD")])
    else none
  stringify _ := ""
  privateToPublic key := key

def memoText : String := "\x7b\"memo\":\"转\"\x7d"

/-- A body with a memo of one character, which comes in two chunks. -/
def memoEvents (first second : List UInt8) : List GatewayEvent :=
  [.request "POST" "/fbstransfer", .data 0 first, .data 0 second]

theorem body_eq_sent_whole :
    let es := memoEvents (utf8Bytes "\x7b\"memo\":") (utf8Bytes "\"转\"\x7d")
    let t := Rollback.run (Gateway.step memoRuntime) (start sampleConfig) es
    ∃ r, t.requests[0]? = some r ∧ r.body = memoText := by
  intro es t
  have hr : t.requests[0]? =
      some { method := "POST", pathname := "/fbstransfer", body := memoText } := by
    decide +kernel
  have hchunks : chunksOf 0 (Rollback.accepted (Gateway.step memoRuntime) (start sampleConfig) es) =
      [utf8Bytes "\x7b\"memo\":", utf8Bytes "\"转\"\x7d"] := by
    decide +kernel
  have hwhole : ∀ chunk ∈ [utf8Bytes "\x7b\"memo\":", utf8Bytes "\"转\"\x7d"],
      WholeChunk chunk := by
    simp only [List.forall_mem_cons]
    exact ⟨⟨_, rfl⟩, ⟨_, rfl⟩, by simp⟩
  have hsent := @body_eq_sent_iff memoRuntime sampleConfig es 0 _ execTransfer memoText hr rfl
    (by decide +kernel)
  refine ⟨_, hr, hsent.1.mpr fun chunk hchunk => hwhole chunk ?_⟩
  rw [← hchunks]
  exact hchunk

/-- The strings of the call that the body leads to. -/
def memosOf (s : Gateway) : List (List (Option String)) :=
  s.lookups.map fun p => p.call.args.map fun
    | some (.str text) => some text
    | _ => none

/-- The first chunk ends inside the character: another memo is passed on than was sent. -/
theorem body_not_sent_split :
    let es := memoEvents (utf8Bytes "\x7b\"memo\":\"" ++ [0xE8])
      ([0xBD, 0xAC] ++ utf8Bytes "\"\x7d")
    let t := Rollback.run (Gateway.step memoRuntime) (start sampleConfig) (es ++ [.ended 0])
    (chunksOf 0 es).flatten = utf8Bytes memoText ∧
      t.requests.map Request.body ≠ [memoText] ∧
      t.memosOf = [[none, none, none, none, none, some "\uFFFD\uFFFD\uFFFD"]] := by
  decide +kernel

end Gateway

end Xidata.NodeSvr
