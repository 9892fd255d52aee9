import HttpCapture.Exchange.Messages

/-! Messages as they are found and as they are finished. Where a message ends does not depend on
what finishes it, so each message is one that was found by its head and framing alone. -/

namespace HttpCapture

namespace Reading

/-- A message whose head is cut, with its content checked. -/
def cutMessage (r : Reading) (pos available : Nat) (startLine : StartLine) (fields : Fields) :
    Exchange :=
  r.checkContent (r.foundCut pos available startLine fields)

/-- A message with a whole head, its content checked, and the bytes of its body. -/
def wholeMessage (r : Reading) (pos headSize : Nat) (startLine : StartLine) (fields : Fields)
    (bs : Bytes) (answersHead : Bool) : Exchange × Nat :=
  let found := r.foundWhole pos headSize startLine fields bs answersHead
  (r.checkContent found.1, found.2)

/-- The messages of `bs`, which stands at `pos` in the stream, with the content of each checked. -/
def messagesFrom (r : Reading) (pos : Nat) (bs : Bytes) (methods : List String) : List Exchange :=
  r.messagesWith r.checkContent pos bs methods

theorem messagesFrom_eq (r : Reading) (pos : Nat) (bs : Bytes) (methods : List String) :
    r.messagesFrom pos bs methods =
      if _hne : bs = [] then []
      else
        match readHead? r.limits.maxHead bs with
        | none => r.messagesFrom (pos + r.gap pos bs) (bs.drop (r.gap pos bs)) methods
        | some head =>
          match head.block with
          | .oversized => r.messagesFrom (pos + r.gap pos bs) (bs.drop (r.gap pos bs)) methods
          | .truncated fields => [r.cutMessage pos bs.length head.startLine fields]
          | .complete fields size rest =>
            let read := r.wholeMessage pos (head.lineSize + size) head.startLine fields rest
              (answersHead head.startLine methods)
            let total := head.lineSize + size + read.2
            if 0 < total then
              read.1 :: r.messagesFrom (pos + total) (bs.drop total)
                (remaining head.startLine methods)
            else [read.1] := by
  rw [messagesFrom, messagesWith]
  rfl

/-- What is true of all that is found is true of every message before it is finished. -/
theorem forall_found {P : Exchange → Prop} {r : Reading} (finish : Exchange → Exchange)
    (hcut : ∀ pos available startLine fields, P (r.foundCut pos available startLine fields))
    (hwhole : ∀ pos headSize startLine fields bs answersHead,
      P (r.foundWhole pos headSize startLine fields bs answersHead).1)
    (pos : Nat) (bs : Bytes) (methods : List String) :
    ∀ e ∈ r.messagesWith finish pos bs methods, ∃ found, P found ∧ finish found = e := by
  have hread : ∀ {pos headSize startLine fields bs answersHead found bodySize},
      r.foundWhole pos headSize startLine fields bs answersHead = (found, bodySize) → P found := by
    intro pos headSize startLine fields bs answersHead found bodySize hfound
    have := hwhole pos headSize startLine fields bs answersHead
    rwa [hfound] at this
  fun_induction r.messagesWith finish pos bs methods with
  | case1 => exact fun e he => absurd he List.not_mem_nil
  | case2 pos bs methods hne resync hhead ih => exact ih
  | case3 pos bs methods hne resync head hhead hblock ih => exact ih
  | case4 pos bs methods hne head hhead fields hblock =>
    intro e he
    exact ⟨_, hcut _ _ _ _, (List.mem_singleton.mp he).symm⟩
  | case5 pos bs methods hne head hhead fields size rest hblock headSize found bodySize hfound
      total hpos _ ih =>
    intro e he
    rcases List.mem_cons.mp he with rfl | he
    · exact ⟨found, hread hfound, rfl⟩
    · exact ih e he
  | case6 pos bs methods hne head hhead fields size rest hblock headSize found bodySize hfound =>
    intro e he
    obtain rfl := List.mem_singleton.mp he
    exact ⟨found, hread hfound, rfl⟩

end Reading

end HttpCapture
