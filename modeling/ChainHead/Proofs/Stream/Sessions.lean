import ChainHead.Proofs.Stream.Chunks

/-! What a session asks for and yields. It asks for its target first. For a body in which nothing is rejected it yields
the reading of the body, so neither the cuts between chunks nor anything beside the types and the data of the blocks
leaves a trace in it. -/

namespace ChainHead.Stream

/-! ### What does not matter to a block -/

/-- Lines beside the types and the data of a block change nothing: comments, identifiers, and all others. -/
theorem headData?_insert {line : List UInt8} (hevent : fieldName line ≠ "event") (hdata : fieldName line ≠ "data")
    (front back : List (List UInt8)) : headData? (front ++ line :: back) = headData? (front ++ back) := by
  have hvalues {name : String} (hname : fieldName line ≠ name) :
      values name (front ++ line :: back) = values name (front ++ back) := by
    rw [List.append_cons, values_append, values_append, values_singleton, if_neg hname, List.append_nil,
      ← values_append]
  rw [headData?, headData?, blockType, blockType, hvalues hevent, hvalues hdata]

/-- Whether the type is named before the data or behind them changes nothing either. -/
theorem headData?_comm {type data : List UInt8} (htype : fieldName type = "event") (hdata : fieldName data = "data")
    (front back : List (List UInt8)) :
    headData? (front ++ type :: data :: back) = headData? (front ++ data :: type :: back) := by
  have hvalues (name : String) : values name (front ++ type :: data :: back) =
      values name (front ++ data :: type :: back) := by
    simp only [values, List.filter_append, List.filter_cons, List.map_append, htype, hdata]
    by_cases hname : name = "event"
    · simp [hname]
    · simp [Ne.symm hname]
  rw [headData?, headData?, blockType, blockType, hvalues, hvalues]

/-! ### The requests of a session -/

/-- Whatever a session comes to ask for, it asks for its target first, if this can be asked for at all. -/
theorem head?_requests_connect (left : Nat) (target : Http.Target) (connections : List Connection) :
    (connect left target connections).requests.head? = if target.isSpoken then some target else none := by
  fun_cases connect left target connections with
  | case1 hspoken => simp [hspoken]
  | case2 hspoken => simp [hspoken, Session.failed]
  | case3 connection rest hspoken =>
      have hunspoken : target.isSpoken = false := by simpa using hspoken
      simp [hunspoken, Session.failed]
  | _ => simp_all [Session.after]

theorem eq_of_mem_head?_open? {target first : Http.Target} {network : Network}
    (h : first ∈ (open? target network).requests.head?) : first = target := by
  cases network with
  | unreachable => cases h
  | reached connections =>
      rw [open?, head?_requests_connect] at h
      split_ifs at h
      · exact (Option.some.inj h).symm
      · cases h

/-! ### The items of a session -/

section

variable {left : Nat} {target : Http.Target} {reply : Reply} {rest : List Connection}

/-- The session of a response to the request for the stream. -/
theorem connect_of_isSuccess (hspoken : target.isSpoken = true)
    (hsuccess : Http.isSuccess reply.status = true) :
    connect left target (.replied reply :: rest) =
      ⟨.connected :: bodyItems reply.chunks reply.ending, reply.ending = .never, [target], rest⟩ := by
  rw [connect, hspoken, Bool.not_true, if_neg (by simp)]
  exact if_pos hsuccess

/-- A successful response with a faultless body yields the reading of the body. It matters neither how the body
is cut into chunks, nor what it says beside the data about heads and its end; and for these data it matters neither
which other lines a block has, nor whether it names its type before its data. -/
theorem items_eq_reading (hspoken : target.isSpoken = true) (hsuccess : Http.isSuccess reply.status = true)
    (hbody : IsFaultless reply.chunks.flatten) :
    (connect left target (.replied reply :: rest)).items =
        reading reply.chunks.flatten reply.ending ∧
      (∀ chunks, chunks.flatten = reply.chunks.flatten →
        (connect left target (.replied { reply with chunks } :: rest)).items =
          (connect left target (.replied reply :: rest)).items) ∧
      (∀ chunks, IsFaultless chunks.flatten →
        (blocks (cutLines chunks.flatten).1).filterMap headData? =
          (blocks (cutLines reply.chunks.flatten).1).filterMap headData? →
        bodyEnding (cutLines chunks.flatten).2 = bodyEnding (cutLines reply.chunks.flatten).2 →
        (connect left target (.replied { reply with chunks } :: rest)).items =
          (connect left target (.replied reply :: rest)).items) ∧
      (∀ line front back, fieldName line ≠ "event" → fieldName line ≠ "data" →
        headData? (front ++ line :: back) = headData? (front ++ back)) ∧
      ∀ type data front back, fieldName type = "event" → fieldName data = "data" →
        headData? (front ++ type :: data :: back) = headData? (front ++ data :: type :: back) := by
  have hitems (chunks : List (List UInt8)) (h : IsFaultless chunks.flatten) :
      (connect left target (.replied { reply with chunks } :: rest)).items =
        reading chunks.flatten reply.ending := by
    rw [connect_of_isSuccess hspoken (by exact hsuccess)]
    exact bodyItems_of_isFaultless h reply.ending
  refine ⟨hitems reply.chunks hbody, fun chunks hflatten => ?_, fun chunks h hdata hending => ?_,
    fun line front back hevent hdata => headData?_insert hevent hdata front back,
    fun type data front back htype hdata => headData?_comm htype hdata front back⟩
  · rw [hitems chunks (hflatten ▸ hbody), hitems reply.chunks hbody, hflatten]
  · have hblockItems (lines : List (List UInt8)) :
        (blocks lines).filterMap blockItem? = ((blocks lines).filterMap headData?).map headItem := by
      rw [List.map_filterMap]
      rfl
    rw [hitems chunks h, hitems reply.chunks hbody, reading, reading, hblockItems, hblockItems, hdata, hending]

end

def localEvents : Http.Target := ⟨some ("http", "localhost:5052"), "/eth/v1/events?topics=head"⟩

theorem isSpoken_localEvents : localEvents.isSpoken = true := by decide +kernel

/-- A comment, a head of which the data stand before the type, and an unfinished line. -/
def sampleBody : List UInt8 := Utf8.encode
  (": é\r\ndata: \x7b\"slot\":\"7\",\"block\":\"0xé\",\"state\":\"\"\x7d\r\nevent: head\r\n\r\nid").toList

/-- The body is cut inside of a character and between a carriage return and its line feed. -/
def cutReply : Reply where
  chunks := [sampleBody.take 3, (sampleBody.drop 3).take 2, [], sampleBody.drop 5]

theorem items_eq_reading_cutReply :
    localEvents.isSpoken = true ∧ Http.isSuccess cutReply.status = true ∧
      IsFaultless cutReply.chunks.flatten ∧
      (connect 16 localEvents [.replied cutReply]).items =
        [.connected, .head ⟨7, "0xé", ""⟩, .failed (.stream .unfinished)] ∧
      (connect 16 localEvents [.replied { cutReply with chunks := [sampleBody] }]).items =
        (connect 16 localEvents [.replied cutReply]).items := by
  have hbody : IsFaultless cutReply.chunks.flatten := by decide +kernel
  have hitems := @items_eq_reading 16 localEvents cutReply [] isSpoken_localEvents rfl hbody
  have hreading : reading cutReply.chunks.flatten cutReply.ending =
      [.connected, .head ⟨7, "0xé", ""⟩, .failed (.stream .unfinished)] := by decide +kernel
  exact ⟨isSpoken_localEvents, rfl, hbody, hitems.1.trans hreading, hitems.2.1 [sampleBody] (by decide +kernel)⟩

end ChainHead.Stream
