import Sillage.Reader.Replay

/-!
# What a cursor still holds

A cursor stands for the list of its messages still to be taken: its head, the ordinals
left of the current chunk, and the plans behind it. Peeking shows the first of them
and changes the list no more than the cache does.
-/

namespace Sillage

open LittleEndian Idx

variable (reader : Reader)

/-- The message that a plan has at an ordinal of its decoded chunk. -/
def itemAt (plan : ChunkPlan) (chunk : DecodedChunk) (ord : Nat) : Option Peeked :=
  (chunk.decodeMessage reader.codecs ord).toOption.map (peekedAt plan ord)

/-- The messages of a plan, at its ordinals in ascending order. -/
def planItems (plan : ChunkPlan) : List Peeked :=
  match decodeChunk reader.codecs (reader.zstFile plan.entry) with
  | .ok chunk => (ordinals plan.union).filterMap (itemAt reader plan chunk)
  | .error _ => []

/-- The messages of a stream's plans, one chunk after the other. -/
def streamItems (plans : List ChunkPlan) : List Peeked := plans.flatMap (planItems reader)

/-- A plan whose chunk decodes to messages at all its ordinals. -/
structure Decodes (plan : ChunkPlan) (chunk : DecodedChunk) : Prop where
  decoded : decodeChunk reader.codecs (reader.zstFile plan.entry) = .ok chunk
  messages : ∀ ord ∈ plan.union, ∃ msg, chunk.decodeMessage reader.codecs ord = .ok msg

/-- The cached chunk is the one that the plans with its key refer to. -/
def ChunkAgrees (plans : ChunkPlan → Prop) (key : CacheKey) (chunk : DecodedChunk) : Prop :=
  ∀ plan, plans plan → key = ⟨plan.stream, plan.entry.startSlot⟩ →
    decodeChunk reader.codecs (reader.zstFile plan.entry) = .ok chunk

/-- Plans that a stream and a start slot tell apart, as far as their files go. -/
def OneFile (plans : ChunkPlan → Prop) : Prop :=
  ∀ plan other, plans plan → plans other → plan.stream = other.stream →
    plan.entry.startSlot = other.entry.startSlot →
    reader.zstFile plan.entry = reader.zstFile other.entry

namespace StreamCursor

/-- The messages left of the current chunk. -/
def current (cursor : StreamCursor) : List Peeked :=
  match cursor.currentOrds, cursor.currentDecoded, openPlan cursor.plans cursor.planIdx with
  | some ords, some chunk, some plan => ords.filterMap (itemAt reader plan chunk)
  | _, _, _ => []

/-- The messages that the cursor has still to give. -/
def remaining (cursor : StreamCursor) : List Peeked :=
  cursor.peeked.toList ++ cursor.current reader ++
    streamItems reader (cursor.plans.drop cursor.planIdx)

/-- A cursor over decodable plans, in the middle of one of them or between two. -/
structure Sound (plans : ChunkPlan → Prop) (cursor : StreamCursor) : Prop where
  oneFile : OneFile reader plans
  among : ∀ plan ∈ cursor.plans, plans plan
  decodable : ∀ plan ∈ cursor.plans, plan.union ≠ ∅ → ∃ chunk, Decodes reader plan chunk
  inChunk : ∀ ord rest, cursor.currentOrds = some (ord :: rest) →
    ∃ plan chunk, openPlan cursor.plans cursor.planIdx = some plan ∧
      cursor.currentDecoded = some chunk ∧ ∀ o ∈ ord :: rest,
        ∃ msg, chunk.decodeMessage reader.codecs o = .ok msg

variable {reader}

/-- A new cursor holds the messages of its plans. -/
theorem remaining_new (plans : List ChunkPlan) :
    (new plans).remaining reader = streamItems reader plans := by
  simp [remaining, new, current]

/-- A cursor at the front of its plans is sound. -/
theorem sound_new {among : ChunkPlan → Prop} {plans : List ChunkPlan}
    (oneFile : OneFile reader among) (isAmong : ∀ plan ∈ plans, among plan)
    (decodable : ∀ plan ∈ plans, plan.union ≠ ∅ → ∃ chunk, Decodes reader plan chunk) :
    Sound reader among (new plans) :=
  ⟨oneFile, isAmong, decodable, by simp [new]⟩

/-- Plans with empty bitmaps hold no messages. -/
theorem planItems_empty {plan : ChunkPlan} (empty : plan.union = ∅) : planItems reader plan = [] := by
  have none := (ordinals_eq_nil plan.union).mpr empty
  rw [planItems]
  split
  · simp [none]
  · rfl

/-- Skipping plans with empty bitmaps skips no message. -/
theorem skipEmpty_spec (reader : Reader) (plans : List ChunkPlan) (planIdx : Nat)
    (suffix : List ChunkPlan) (suffixEq : suffix = plans.drop planIdx) :
    match skipEmpty suffix planIdx with
    | (none, after) => streamItems reader suffix = [] ∧ plans.drop after = []
    | (some plan, after) => plan.union ≠ ∅ ∧ plan ∈ suffix ∧ openPlan plans after = some plan ∧
        streamItems reader suffix = planItems reader plan ++ streamItems reader (plans.drop after) := by
  induction suffix generalizing planIdx with
  | nil => exact ⟨rfl, suffixEq.symm⟩
  | cons plan rest inductionHypothesis =>
    have here : plans[planIdx]? = some plan := by
      rw [← List.head?_drop, ← suffixEq]
      rfl
    have behind : rest = plans.drop (planIdx + 1) := by
      rw [← List.tail_drop, ← suffixEq]
      rfl
    rw [skipEmpty]
    by_cases empty : plan.union = ∅
    · rw [if_pos empty]
      have skipped := inductionHypothesis (planIdx + 1) behind
      have nothing : streamItems reader (plan :: rest) = streamItems reader rest := by
        simp [streamItems, planItems_empty empty]
      split at skipped
      · exact ⟨nothing.trans skipped.1, skipped.2⟩
      · obtain ⟨full, member, here', items⟩ := skipped
        exact ⟨full, List.mem_cons_of_mem _ member, here', nothing.trans items⟩
    · rw [if_neg empty]
      exact ⟨empty, List.mem_cons_self, here, by simp [streamItems, behind]⟩

/-- Skipping goes forward. -/
theorem skipEmpty_le (suffix : List ChunkPlan) (planIdx : Nat) :
    planIdx ≤ (skipEmpty suffix planIdx).2 := by
  induction suffix generalizing planIdx with
  | nil => exact Nat.le_refl planIdx
  | cons plan rest inductionHypothesis =>
    rw [skipEmpty]
    split
    · exact (Nat.le_succ planIdx).trans (inductionHypothesis (planIdx + 1))
    · exact Nat.le_succ planIdx

/-- Decoding the next ordinal of the current chunk shows its message. -/
theorem decodeNext_spec {plans : ChunkPlan → Prop} {cursor : StreamCursor}
    (sound : Sound reader plans cursor) (idle : cursor.peeked = none) {ord : Nat}
    {rest : List Nat} (ords : cursor.currentOrds = some (ord :: rest)) :
    ∃ item cursor', decodeNext reader cursor ord rest = .ok (some item, cursor') ∧
      cursor'.remaining reader = cursor.remaining reader ∧ cursor'.peeked = some item ∧
      Sound reader plans cursor' := by
  obtain ⟨plan, chunk, here, decoded, messages⟩ := sound.inChunk ord rest ords
  obtain ⟨msg, found⟩ := messages ord List.mem_cons_self
  refine ⟨peekedAt plan ord msg,
    { cursor with currentOrds := some rest, peeked := some (peekedAt plan ord msg) },
    by simp [decodeNext, decoded, here, found], ?_, rfl, sound.oneFile, sound.among,
    sound.decodable, ?_⟩
  · simp [remaining, current, ords, decoded, here, idle, itemAt, found, Except.toOption]
  · intro next later same
    obtain rfl := Option.some.inj same
    exact ⟨plan, chunk, here, decoded, fun o member =>
      messages o (List.mem_cons_of_mem _ member)⟩

/-- Nothing is left of the current chunk once its ordinals are used up. -/
theorem current_exhausted {cursor : StreamCursor}
    (exhausted : ∀ ord rest, cursor.currentOrds ≠ some (ord :: rest)) :
    cursor.current reader = [] := by
  rw [current]
  split
  · next ords _ _ same _ _ =>
    cases ords with
    | nil => rfl
    | cons ord rest => exact absurd same (exhausted ord rest)
  · rfl

/-- Opening the next plan shows its first message, which is the first one left when
nothing is left of the current chunk. -/
theorem openNext_spec {plans : ChunkPlan → Prop} {cursor : StreamCursor} {cache : ChunkCache}
    (sound : Sound reader plans cursor) (agrees : cache.Holds (ChunkAgrees reader plans))
    (idle : cursor.peeked = none)
    (exhausted : ∀ ord rest, cursor.currentOrds ≠ some (ord :: rest)) :
    ∃ item cursor' cache', openNext reader cursor cache = .ok (item, cursor', cache') ∧
      cursor'.remaining reader = cursor.remaining reader ∧ cursor'.peeked = item ∧
      (item = none → cursor.remaining reader = []) ∧ Sound reader plans cursor' ∧
      cache'.Holds (ChunkAgrees reader plans) := by
  have held : cursor.remaining reader = streamItems reader (cursor.plans.drop cursor.planIdx) := by
    simp [remaining, idle, current_exhausted exhausted]
  have skipped := skipEmpty_spec reader cursor.plans cursor.planIdx _ rfl
  rw [openNext]
  rcases found : skipEmpty (cursor.plans.drop cursor.planIdx) cursor.planIdx with
    ⟨_ | plan, after⟩
  · rw [found] at skipped
    obtain ⟨nothing, behind⟩ := skipped
    have nothingLeft : ({ cursor with planIdx := after } : StreamCursor).current reader = [] :=
      current_exhausted exhausted
    refine ⟨none, _, cache, rfl, ?_, idle, fun _ => held.trans nothing, ⟨sound.oneFile,
      sound.among, sound.decodable, fun ord rest same => absurd same (exhausted ord rest)⟩, agrees⟩
    rw [held, nothing, remaining, nothingLeft, idle, behind]
    rfl
  · rw [found] at skipped
    obtain ⟨full, member, here, items⟩ := skipped
    have isPlan : plan ∈ cursor.plans := List.mem_of_mem_drop member
    obtain ⟨chunk, decodes⟩ := sound.decodable plan isPlan full
    have right : ChunkAgrees reader plans ⟨plan.stream, plan.entry.startSlot⟩ chunk := by
      intro other isAmong same
      obtain ⟨stream, start⟩ := CacheKey.mk.inj same
      rw [← sound.oneFile plan other (sound.among plan isPlan) isAmong stream start]
      exact decodes.decoded
    have unique : ∀ other, ChunkAgrees reader plans ⟨plan.stream, plan.entry.startSlot⟩ other →
        other = chunk := by
      intro other agreesOther
      exact Except.ok.inj ((agreesOther plan (sound.among plan isPlan) rfl).symm.trans
        decodes.decoded)
    obtain ⟨cache', cached, agrees'⟩ := getOrDecode_ok agrees reader.chunkBudgetBytes
      decodes.decoded right unique
    cases ords : ordinals plan.union with
    | nil => exact absurd ((ordinals_eq_nil plan.union).mp ords) full
    | cons ord rest =>
      have opened : Sound reader plans { cursor with
          planIdx := after
          currentDecoded := some chunk
          currentOrds := some (ord :: rest) } := by
        refine ⟨sound.oneFile, sound.among, sound.decodable, ?_⟩
        intro first later same
        refine ⟨plan, chunk, here, rfl, fun o among => decodes.messages o ?_⟩
        rw [← mem_ordinals, ords]
        exact Option.some.inj same ▸ among
      obtain ⟨item, cursor', done, kept, peeked, sound'⟩ := decodeNext_spec opened idle rfl
      refine ⟨some item, cursor', cache', ?_, kept.trans ?_, peeked, by simp, sound', agrees'⟩
      · simp only [cached, ords, done, bind, Except.bind]
      · rw [held, items]
        simp [remaining, idle, current, here, planItems, decodes.decoded, ords]

/-- Peeking shows the first message left, if there is one, and loses none. -/
theorem peek_spec {plans : ChunkPlan → Prop} {cursor : StreamCursor} {cache : ChunkCache}
    (sound : Sound reader plans cursor) (agrees : cache.Holds (ChunkAgrees reader plans)) :
    ∃ item cursor' cache', cursor.peek reader cache = .ok (item, cursor', cache') ∧
      item = (cursor.remaining reader).head? ∧
      cursor'.remaining reader = cursor.remaining reader ∧ cursor'.peeked = item ∧
      Sound reader plans cursor' ∧ cache'.Holds (ChunkAgrees reader plans) := by
  cases shown : cursor.peeked with
  | some item =>
    refine ⟨some item, cursor, cache, by simp [peek, shown], ?_, rfl, shown, sound, agrees⟩
    simp [remaining, shown]
  | none =>
    -- a decoded head is the first message left
    have head : ∀ {item : Option Peeked} {cursor' : StreamCursor},
        cursor'.remaining reader = cursor.remaining reader → cursor'.peeked = item →
        (item = none → cursor.remaining reader = []) →
        item = (cursor.remaining reader).head? := by
      intro item cursor' same peeked none
      cases item with
      | none => simp [none rfl]
      | some item =>
        rw [← same]
        simp [remaining, peeked]
    have opened : (∀ ord rest, cursor.currentOrds ≠ some (ord :: rest)) →
        peek reader cursor cache = openNext reader cursor cache →
        ∃ item cursor' cache', cursor.peek reader cache = .ok (item, cursor', cache') ∧
          item = (cursor.remaining reader).head? ∧
          cursor'.remaining reader = cursor.remaining reader ∧ cursor'.peeked = item ∧
          Sound reader plans cursor' ∧ cache'.Holds (ChunkAgrees reader plans) := by
      intro exhausted same
      obtain ⟨item, cursor', cache', done, kept, peeked, empty, sound', agrees'⟩ :=
        openNext_spec sound agrees shown exhausted
      exact ⟨item, cursor', cache', same.trans done, head kept peeked empty, kept, peeked, sound',
        agrees'⟩
    cases ords : cursor.currentOrds with
    | none => exact opened (by simp [ords]) (by simp [peek, shown, ords])
    | some list =>
      cases list with
      | nil => exact opened (by simp [ords]) (by simp [peek, shown, ords])
      | cons ord rest =>
        obtain ⟨item, cursor', done, kept, peeked, sound'⟩ := decodeNext_spec sound shown ords
        exact ⟨some item, cursor', cache, by simp [peek, shown, ords, done, bind, Except.bind],
          head kept peeked (by simp), kept, peeked, sound', agrees⟩

/-- Taking the head leaves the messages behind it. -/
theorem takePeeked_spec {plans : ChunkPlan → Prop} {cursor : StreamCursor} {item : Peeked}
    (sound : Sound reader plans cursor) (peeked : cursor.peeked = some item) :
    ∃ cursor', cursor.takePeeked = some (item, cursor') ∧
      cursor.remaining reader = item :: cursor'.remaining reader ∧ Sound reader plans cursor' :=
  ⟨{ cursor with peeked := none }, by simp [takePeeked, peeked],
    by simp [remaining, peeked, current],
    ⟨sound.oneFile, sound.among, sound.decodable, sound.inChunk⟩⟩

/-- The number of messages that a cursor has still to give, if all of them decode. -/
def left (cursor : StreamCursor) : Nat :=
  cursor.peeked.toList.length + (cursor.currentOrds.getD []).length +
    Replay.planned (cursor.plans.drop cursor.planIdx)

/-- Decoding an ordinal takes it off the chunk and shows its message. -/
theorem decodeNext_inv {cursor cursor' : StreamCursor} {ord : Nat} {rest : List Nat}
    {item : Option Peeked} (done : decodeNext reader cursor ord rest = .ok (item, cursor')) :
    ∃ head, cursor' = { cursor with currentOrds := some rest, peeked := some head } := by
  unfold decodeNext at done
  split at done
  · split at done
    · cases done
    · cases done
      exact ⟨_, rfl⟩
  · cases done

/-- Decoding an ordinal turns it into the head. -/
theorem decodeNext_left {cursor cursor' : StreamCursor} {ord : Nat} {rest : List Nat}
    {item : Option Peeked} (idle : cursor.peeked = none)
    (ords : cursor.currentOrds = some (ord :: rest))
    (done : decodeNext reader cursor ord rest = .ok (item, cursor')) :
    cursor'.left = cursor.left := by
  obtain ⟨head, rfl⟩ := decodeNext_inv done
  simp only [left, idle, ords, Option.toList_some, Option.toList_none, Option.getD_some,
    List.length_cons, List.length_nil]
  omega

/-- Skipping plans with empty bitmaps leaves as many messages. -/
theorem skipEmpty_left (plans : List ChunkPlan) (planIdx : Nat) (suffix : List ChunkPlan)
    (suffixEq : suffix = plans.drop planIdx) :
    match skipEmpty suffix planIdx with
    | (none, after) => Replay.planned (plans.drop after) = Replay.planned suffix
    | (some plan, after) =>
        plan.union.card + Replay.planned (plans.drop after) = Replay.planned suffix := by
  induction suffix generalizing planIdx with
  | nil => exact congrArg Replay.planned suffixEq.symm
  | cons plan rest inductionHypothesis =>
    have behind : rest = plans.drop (planIdx + 1) := by
      rw [← List.tail_drop, ← suffixEq]
      rfl
    rw [skipEmpty]
    by_cases empty : plan.union = ∅
    · rw [if_pos empty]
      have nothing : Replay.planned (plan :: rest) = Replay.planned rest := by
        simp [Replay.planned, empty]
      rw [nothing]
      exact inductionHypothesis (planIdx + 1) behind
    · rw [if_neg empty]
      dsimp only
      rw [← behind]
      simp [Replay.planned]

/-- Opening a plan turns its bitmap into ordinals to come. -/
theorem openNext_left {cursor cursor' : StreamCursor} {cache cache' : ChunkCache}
    {item : Option Peeked} (idle : cursor.peeked = none)
    (exhausted : cursor.currentOrds.getD [] = [])
    (done : openNext reader cursor cache = .ok (item, cursor', cache')) :
    cursor'.left = cursor.left := by
  have skipped := skipEmpty_left cursor.plans cursor.planIdx _ rfl
  unfold openNext at done
  split at done
  · next after found =>
    cases done
    rw [found] at skipped
    simpa [left, idle, exhausted] using skipped
  · next plan after found =>
    rw [found] at skipped
    dsimp only at skipped
    split at done
    · cases done
    · have counted := ordinals_length plan.union
      split at done
      · next ord rest ords =>
        simp only [bind, Except.bind] at done
        split at done
        · cases done
        · next made decoded =>
          cases done
          refine (decodeNext_left ?_ ?_ decoded).trans ?_
          · exact idle
          · exact congrArg some ords
          · simp only [left, idle, exhausted, Option.getD_some, counted, List.length_nil,
              Option.toList_none]
            omega
      · next ords =>
        cases done
        simp only [left, idle, exhausted, Option.getD_some, counted, List.length_nil,
          Option.toList_none]
        omega

/-- Peeking leaves as many messages. -/
theorem peek_left {cursor cursor' : StreamCursor} {cache cache' : ChunkCache}
    {item : Option Peeked} (done : cursor.peek reader cache = .ok (item, cursor', cache')) :
    cursor'.left = cursor.left := by
  unfold peek at done
  split at done
  · cases done
    rfl
  · next idle =>
    split at done
    · next ord rest ords =>
      simp only [bind, Except.bind] at done
      split at done
      · cases done
      · next made decoded =>
        cases done
        exact decodeNext_left idle ords decoded
    · next ords => exact openNext_left idle (by rw [ords]; rfl) done
    · next ords => exact openNext_left idle (by rw [ords]; rfl) done

/-- A cursor fails for what it decodes. -/
theorem decodeNext_fails {cursor : StreamCursor} {ord : Nat} {rest : List Nat} {error : ReplayError}
    (failed : decodeNext reader cursor ord rest = .error error) : error ≠ .unfinished := by
  unfold decodeNext at failed
  split at failed
  · split at failed
    · cases failed
      simp
    · cases failed
  · cases failed
    simp

/-- Opening a chunk that fails does not fail by running out of steps. -/
theorem openNext_fails {cursor : StreamCursor} {cache : ChunkCache} {error : ReplayError}
    (failed : openNext reader cursor cache = .error error) : error ≠ .unfinished := by
  unfold openNext at failed
  split at failed
  · cases failed
  · split at failed
    · cases failed
      simp
    · split at failed
      · simp only [bind, Except.bind] at failed
        split at failed
        · next decoded =>
          cases failed
          exact decodeNext_fails decoded
        · cases failed
      · cases failed

/-- Nor does peeking at a message. -/
theorem peek_fails {cursor : StreamCursor} {cache : ChunkCache} {error : ReplayError}
    (failed : cursor.peek reader cache = .error error) : error ≠ .unfinished := by
  unfold peek at failed
  split at failed
  · cases failed
  · split at failed
    · simp only [bind, Except.bind] at failed
      split at failed
      · next decoded =>
        cases failed
        exact decodeNext_fails decoded
      · cases failed
    · exact openNext_fails failed
    · exact openNext_fails failed

/-- Taking the head leaves one message less. -/
theorem takePeeked_left {cursor cursor' : StreamCursor} {item : Peeked}
    (taken : cursor.takePeeked = some (item, cursor')) : cursor'.left + 1 = cursor.left := by
  obtain ⟨head, shown, same⟩ := Option.map_eq_some_iff.mp taken
  cases same
  simp only [left, shown, Option.toList_some, Option.toList_none, List.length_cons,
    List.length_nil]
  omega

end StreamCursor

end Sillage
