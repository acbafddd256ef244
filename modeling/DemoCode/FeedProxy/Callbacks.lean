import DemoCode.FeedProxy.FanOut

/-! What the callbacks that handle no request touch and hand on, once for each of them.  Whatever does
not depend on the fields that a callback touches stays. -/

namespace DemoCode.FeedProxy

theorem mem_unsubMsg {key : String} {o : Out} (h : o ∈ unsubMsg key) :
    ∃ text, o = .sendReq (.text text) := by
  unfold unsubMsg at h
  split at h
  · exact ⟨_, List.mem_singleton.mp h⟩
  · exact absurd h List.not_mem_nil

/-! ### Disconnects and timers -/

section

variable {β : Type*} {f : ConvertService → β}

theorem disconnectKey_keeps (hf : ∀ s m, f { s with type2ctxsMap := m } = f s) (conn : CContext)
    (s : ConvertService) (key : String) : f (disconnectKey conn s key).1 = f s := by
  unfold disconnectKey
  split
  · rfl
  · exact hf _ _

/-- A disconnect touches the subscriptions of keys only. -/
theorem onLevDisConnect_keeps (hf : ∀ s m, f { s with type2ctxsMap := m } = f s)
    (s : ConvertService) (conn : CContext) : f (onLevDisConnect s conn).1 = f s := by
  unfold onLevDisConnect
  split
  · rfl
  · exact eachOut_keeps (disconnectKey_keeps hf conn) s _

/-- The check of the connections touches the subscriptions of keys, the ids and the marks. -/
theorem checkClientAlive_keeps (hf : ∀ s m ids live,
      f { s with type2ctxsMap := m, id2ctxMap := ids, ctx2isLiveMap := live } = f s)
    (s : ConvertService) : f (checkClientAlive s).1 = f s := by
  apply eachOut_keeps
  intro s it
  unfold checkOne
  split
  · exact hf s _ _ _
  · have hGone := onLevDisConnect_keeps (fun s m => hf s m s.id2ctxMap s.ctx2isLiveMap) s it.1
    rw [← hGone]
    exact hf (onLevDisConnect s it.1).1 _ _ _

end

theorem mem_disconnectKey {conn : CContext} {s : ConvertService} {key : String} {o : Out}
    (h : o ∈ (disconnectKey conn s key).2) : o ∈ unsubMsg key := by
  unfold disconnectKey at h
  split at h
  · exact absurd h List.not_mem_nil
  · dsimp only at h
    split at h
    · exact h
    · exact absurd h List.not_mem_nil

theorem mem_onLevDisConnect {s : ConvertService} {conn : CContext} :
    ∀ o ∈ (onLevDisConnect s conn).2, ∃ key, o ∈ unsubMsg key := by
  unfold onLevDisConnect
  split
  · exact fun o h => absurd h List.not_mem_nil
  · apply eachOut_forall
    exact fun s key o h => ⟨key, mem_disconnectKey h⟩

theorem mem_checkClientAlive {s : ConvertService} :
    ∀ o ∈ (checkClientAlive s).2, (∃ key, o ∈ unsubMsg key) ∨ ∃ conn, o = .close conn := by
  apply eachOut_forall
  intro s it o h
  unfold checkOne at h
  split at h
  · exact absurd h List.not_mem_nil
  · rcases List.mem_append.mp h with hGone | hClose
    · exact .inl (mem_onLevDisConnect o hGone)
    · exact .inr ⟨it.1, List.mem_singleton.mp hClose⟩

theorem mem_onSendHeartbeatTimer {s : ConvertService} :
    ∀ o ∈ (onSendHeartbeatTimer s).2, (∃ key, o ∈ unsubMsg key) ∨ (∃ conn, o = .close conn) ∨
      o = .sendReq (.text heartbeatFormat) := by
  intro o h
  rcases List.mem_append.mp h with hCheck | hBeat
  · exact (mem_checkClientAlive o hCheck).imp_right .inl
  · exact .inr (.inr (List.mem_singleton.mp hBeat))

/-! ### Responses from upstream -/

/-- A page of instruments moves the cursor at most and asks for one more page, or else ends the query
of all instruments. -/
theorem processInsRes_touches {s s' : ConvertService} {resJson : Json} {out : List Out}
    (h : processInsRes s resJson = some (s', out)) :
    (∃ vecPos market beginpos, s' = { s with vecPos } ∧ out = [queryInsMsg market beginpos]) ∨
      ∃ str, s' = { s with utils := { s.utils with queryAllInsResStr := str } } ∧ out = [] := by
  unfold processInsRes at h
  split at h
  · left
    simp only [Option.bind_eq_bind, Option.bind_eq_some_iff] at h
    obtain ⟨data, -, beginpos, -, totalCount, -, h⟩ := h
    split at h
    · obtain ⟨market, -, h⟩ := Option.bind_eq_some_iff.mp h
      cases h
      exact ⟨_, _, _, rfl, rfl⟩
    · obtain ⟨market, -, h⟩ := Option.bind_eq_some_iff.mp h
      cases h
      exact ⟨_, _, _, rfl, rfl⟩
  · right
    cases h
    exact ⟨_, rfl, rfl⟩

/-- A push touches the subscriptions and hands on nothing but its messages. -/
theorem processPush_touches {s s' : ConvertService} {resJson : Json}
    {msgs : List (MsgCarrier Reply)} {out : List Out}
    (h : processPush s resJson msgs = some (s', out)) :
    (∃ type2ctxsMap, s' = { s with type2ctxsMap }) ∧
      ∀ o ∈ out, ∃ conn, ∃ mc ∈ msgs, o = .send conn mc := by
  unfold processPush at h
  simp only [Option.bind_eq_bind, Option.bind_eq_some_iff] at h
  obtain ⟨_ | key, -, h⟩ := h
  · cases h
    exact ⟨⟨_, rfl⟩, fun o hIn => absurd hIn List.not_mem_nil⟩
  dsimp only at h
  split at h
  · cases h
    exact ⟨⟨_, rfl⟩, fun o hIn => absurd hIn List.not_mem_nil⟩
  · simp only [Option.bind_eq_some_iff, Prod.exists] at h
    obtain ⟨ctxs', out', hFan, h⟩ := h
    cases h
    exact ⟨⟨_, rfl⟩, fanOut_sends hFan⟩

/-- A reply touches the ids and hands on nothing but its messages. -/
theorem processReply_touches (s : ConvertService) (reqId : Int) (msgs : List (MsgCarrier Reply)) :
    (∃ id2ctxMap, (processReply s reqId msgs).1 = { s with id2ctxMap }) ∧
      ∀ o ∈ (processReply s reqId msgs).2, ∃ conn, ∃ mc ∈ msgs, o = .send conn mc := by
  unfold processReply
  split
  · exact ⟨⟨_, rfl⟩, fun o hIn => absurd hIn List.not_mem_nil⟩
  · refine ⟨⟨_, rfl⟩, ?_⟩
    dsimp only
    split
    · exact fun o hIn => absurd hIn List.not_mem_nil
    · intro o hIn
      obtain ⟨mc, hMc, rfl⟩ := List.mem_map.mp hIn
      exact ⟨_, mc, hMc, rfl⟩

end DemoCode.FeedProxy
