/-
Module: TreeRssi.Proofs.FirstVersion
Layer: Proofs
Purpose: Relaying in the first version of the program. The origin sends its text with the terminator, and
  every relay terminates again what it received, so the packet grows by one NUL at each relay until it
  fills the 64 bytes of the local array. A relay hands on what it received exactly if that has happened,
  and the packet reaches the root as it was sent exactly if no node relays it.
Imports: TreeRssi.Core.FirstVersion
Trusted boundary: none
Main exports: sendUnicastData_some, recvUc_padded, carry_padded, HandsOn, relay_alters,
  relay_transparent_iff
Open obligations: none
-/
import TreeRssi.Core.FirstVersion

namespace TreeRssi

namespace FirstVersion

open CText

/-! ### The origin -/

variable {packetbufSize : Nat} {stack : Memory} {self bestParentId : LinkAddr}

theorem dataText_length (self : LinkAddr) : (dataText self).length ≤ 17 := by
  have first := decimal_u8_length self.u8_0
  have second := decimal_u8_length self.u8_1
  simp only [dataText, List.length_append, List.length_cons, List.length_nil]
  omega

theorem dataText_ne_zero (self : LinkAddr) : ∀ b ∈ dataText self, b ≠ 0 := by
  intro b member
  simp only [dataText, List.append_assoc, List.mem_append] at member
  rcases member with inText | inFirst | rest
  · exact ne_zero_of_all (by decide) b inText
  · exact decimal_ne_zero _ b inFirst
  · rcases List.mem_cons.mp rest with rfl | inSecond
    · decide
    · exact decimal_ne_zero _ b inSecond

/-- The origin sends its text with one terminator. -/
theorem sendUnicastData_some (big : recvMsgSize ≤ packetbufSize) (parent : bestParentId ≠ linkaddrNull) :
    sendUnicastData packetbufSize stack self bestParentId =
      some { src := self, dst := bestParentId, data := dataText self ++ [0] } := by
  have length := dataText_length self
  have whole : (dataText self).take (sendMsgSize - 1) = dataText self :=
    List.take_of_length_le (by simp only [sendMsgSize]; omega)
  have empty : Holds stack ([] ++ []) := rfl
  have holds : Holds (snprintf stack 0 sendMsgSize (dataText self)) (dataText self ++ [0]) := by
    rw [snprintf, if_neg (by decide), whole]
    exact empty.store
  have string := holds.cstring (n := sendMsgSize) (dataText_ne_zero self)
    (by simp only [sendMsgSize]; omega)
  have sent : (dataText self).length + 1 = (dataText self ++ [0]).length := by simp
  have fits : (dataText self ++ [0]).length ≤ packetbufSize := by
    simp only [recvMsgSize] at big
    omega
  rw [sendUnicastData, if_neg parent]
  simp only [string, sent]
  rw [holds, packetbufCopyfrom, List.take_of_length_le fits]

/-! ### A relay -/

/-- A relay sends what it kept of the packet, and a terminator. -/
theorem recvUc_some (stack : Memory) (self : LinkAddr) {raw : List UInt8} {len : Nat}
    (big : recvMsgSize ≤ packetbufSize) (parent : bestParentId ≠ linkaddrNull)
    (short : raw.length < 256) (cut : len = min raw.length (recvMsgSize - 1)) :
    recvUc packetbufSize stack self bestParentId raw =
      some { src := self, dst := bestParentId, data := raw.take len ++ [0] } := by
  have clamped : (if recvMsgSize ≤ u8 raw.length then recvMsgSize - 1 else u8 raw.length) = len := by
    rw [u8_of_lt short, cut]
    split <;> omega
  have kept : (raw.take len).length = len := by
    rw [List.length_take, cut]
    omega
  have empty : Holds stack ([] ++ []) := rfl
  have copied : Holds (store stack 0 (raw.take len)) (raw.take len ++ []) := by
    rw [List.append_nil]
    exact empty.store
  have holds : Holds (store (store stack 0 (raw.take len)) (raw.take len).length [0])
      (raw.take len ++ [0]) := copied.store
  have sent : len + 1 = (raw.take len ++ [0]).length := by
    rw [List.length_append, kept]
    rfl
  have fits : (raw.take len ++ [0]).length ≤ packetbufSize := by
    rw [← sent, cut]
    simp only [recvMsgSize] at big ⊢
    omega
  rw [kept] at holds
  rw [recvUc]
  simp only [clamped, if_neg parent, sent]
  rw [holds, packetbufCopyfrom, List.take_of_length_le fits]

variable (text : List UInt8) {k : Nat}

/-- A relay adds a terminator to a packet that ends in terminators, unless the packet fills its array. -/
theorem recvUc_padded (stack : Memory) (self : LinkAddr) (big : recvMsgSize ≤ packetbufSize)
    (parent : bestParentId ≠ linkaddrNull) (terminated : 0 < k) (fits : text.length + k ≤ recvMsgSize) :
    recvUc packetbufSize stack self bestParentId (text ++ List.replicate k 0) =
      some { src := self, dst := bestParentId,
             data := text ++ List.replicate (min (k + 1) (recvMsgSize - text.length)) 0 } := by
  have length : (text ++ List.replicate k (0 : UInt8)).length = text.length + k := by simp
  rw [recvUc_some stack self big parent (by rw [length]; simp only [recvMsgSize] at fits; omega) rfl]
  by_cases full : text.length + k = recvMsgSize
  · -- The last terminator is cut, and written again.
    obtain ⟨j, rfl⟩ := Nat.exists_eq_add_of_lt terminated
    have cut : min (text ++ List.replicate (0 + j + 1) (0 : UInt8)).length (recvMsgSize - 1) =
        (text ++ List.replicate j (0 : UInt8)).length := by
      rw [length, List.length_append, List.length_replicate]
      omega
    have last : text ++ List.replicate (0 + j + 1) (0 : UInt8) = text ++ List.replicate j 0 ++ [0] := by
      rw [Nat.zero_add, List.replicate_succ', List.append_assoc]
    have same : min (0 + j + 1 + 1) (recvMsgSize - text.length) = 0 + j + 1 := by omega
    rw [cut, last, List.take_left, same, last]
  · have whole : min (text ++ List.replicate k (0 : UInt8)).length (recvMsgSize - 1) =
        (text ++ List.replicate k (0 : UInt8)).length := by
      rw [length]
      omega
    have more : min (k + 1) (recvMsgSize - text.length) = k + 1 := by omega
    rw [whole, List.take_length, more, List.replicate_succ', List.append_assoc]

/-! ### Chains of relays -/

/-- Over a chain of relays the packet grows by one terminator a relay, up to the size of the array. -/
theorem carry_padded (big : recvMsgSize ≤ packetbufSize) {relays : List Relay}
    (parents : ∀ relay ∈ relays, relay.bestParentId ≠ linkaddrNull) {frame : Frame}
    (sent : frame.data = text ++ List.replicate k 0) (terminated : 0 < k)
    (fits : text.length + k ≤ recvMsgSize) :
    ∃ last, carry packetbufSize relays frame = some last ∧
      last.data = text ++ List.replicate (min (k + relays.length) (recvMsgSize - text.length)) 0 := by
  induction relays generalizing frame k with
  | nil =>
      refine ⟨frame, rfl, ?_⟩
      rw [sent, List.length_nil, Nat.add_zero, Nat.min_eq_left (by omega)]
  | cons relay rest ih =>
      obtain ⟨parent, others⟩ := List.forall_mem_cons.mp parents
      obtain ⟨next, handed⟩ : ∃ next, recvUc packetbufSize relay.stack frame.dst relay.bestParentId
          frame.data = some next ∧
          next.data = text ++ List.replicate (min (k + 1) (recvMsgSize - text.length)) 0 := by
        rw [sent]
        exact ⟨_, recvUc_padded text relay.stack frame.dst big parent terminated fits, rfl⟩
      obtain ⟨last, carried, grown⟩ := ih others handed.2 (by omega) (by omega)
      refine ⟨last, by rw [carry, handed.1, Option.bind_some, carried], ?_⟩
      have count : min (min (k + 1) (recvMsgSize - text.length) + rest.length)
          (recvMsgSize - text.length) =
            min (k + (relay :: rest).length) (recvMsgSize - text.length) := by
        rw [List.length_cons]
        omega
      rw [grown, count]

/-- Packets of one text are equal if they have as many terminators. -/
theorem padded_inj {text : List UInt8} {j : Nat} :
    text ++ List.replicate j (0 : UInt8) = text ++ List.replicate k 0 ↔ j = k := by
  rw [List.append_cancel_left_eq]
  exact List.replicate_left_inj

/-- Every relay of the chain hands on the bytes that it received. -/
def HandsOn (packetbufSize : Nat) : List Relay → Frame → Prop
  | [], _ => True
  | relay :: rest, frame =>
      ∃ next, recvUc packetbufSize relay.stack frame.dst relay.bestParentId frame.data = some next ∧
        next.data = frame.data ∧ HandsOn packetbufSize rest next

/-- One relay adds a byte to the message of node 2. -/
theorem relay_alters :
    ¬ ∀ packetbufSize, recvMsgSize ≤ packetbufSize → ∀ stack self bestParentId frame,
      sendUnicastData packetbufSize stack self bestParentId = some frame →
      ∀ relays : List Relay, (∀ relay ∈ relays, relay.bestParentId ≠ linkaddrNull) →
        HandsOn packetbufSize relays frame ∧
          ∀ last, carry packetbufSize relays frame = some last → last.data = frame.data := by
  intro transparent
  let origin : Frame := ⟨⟨2, 0⟩, ⟨3, 0⟩, dataText ⟨2, 0⟩ ++ [0]⟩
  let relay : Relay := ⟨fun _ => 0, ⟨1, 0⟩⟩
  have sent : sendUnicastData 128 (fun _ => 0) ⟨2, 0⟩ ⟨3, 0⟩ = some origin := by decide +kernel
  have carried : carry 128 [relay] origin =
      some ⟨⟨3, 0⟩, ⟨1, 0⟩, dataText ⟨2, 0⟩ ++ [0, 0]⟩ := by decide +kernel
  obtain ⟨-, same⟩ := transparent 128 (by decide) _ _ _ origin sent [relay] (by simp [relay, linkaddrNull])
  exact absurd (same _ carried) (by decide +kernel)

/-- What the origin sends passes any chain of relays. It arrives as it was sent exactly if there is no
    relay, and that is also when every relay hands on what it received; the next relay does so exactly if
    the relays so far have filled its array. -/
theorem relay_transparent_iff (big : recvMsgSize ≤ packetbufSize) {frame : Frame}
    (sent : sendUnicastData packetbufSize stack self bestParentId = some frame) (relays : List Relay)
    (parents : ∀ relay ∈ relays, relay.bestParentId ≠ linkaddrNull) :
    (HandsOn packetbufSize relays frame ↔ relays = []) ∧
    ∃ last, carry packetbufSize relays frame = some last ∧ (last.data = frame.data ↔ relays = []) ∧
      ∀ relay : Relay, relay.bestParentId ≠ linkaddrNull →
        ∃ next, recvUc packetbufSize relay.stack last.dst relay.bestParentId last.data = some next ∧
          (next.data = last.data ↔ recvMsgSize ≤ frame.data.length + relays.length) := by
  have parent : bestParentId ≠ linkaddrNull := by
    rintro rfl
    cases sent
  rw [sendUnicastData_some big parent] at sent
  cases sent
  have short := dataText_length self
  have fits : (dataText self).length + 1 ≤ recvMsgSize := by
    simp only [recvMsgSize]
    omega
  refine ⟨?_, ?_⟩
  · cases relays with
    | nil => simp [HandsOn]
    | cons relay rest =>
        obtain ⟨first, -⟩ := List.forall_mem_cons.mp parents
        have handed := recvUc_padded (dataText self) relay.stack bestParentId big first Nat.one_pos fits
        refine iff_of_false ?_ (List.cons_ne_nil _ _)
        rintro ⟨next, received, same, -⟩
        rw [show [0] = List.replicate 1 (0 : UInt8) from rfl, handed] at received
        cases received
        have equal := padded_inj.mp (show _ = dataText self ++ List.replicate 1 0 from same)
        simp only [recvMsgSize] at equal fits
        omega
  · have terminated : (⟨self, bestParentId, dataText self ++ [0]⟩ : Frame).data =
        dataText self ++ List.replicate 1 0 := rfl
    obtain ⟨last, carried, grown⟩ := carry_padded (dataText self) big parents terminated Nat.one_pos fits
    refine ⟨last, carried, ?_, fun relay parent' => ?_⟩
    · rw [grown, ← List.length_eq_zero_iff]
      refine Iff.trans (padded_inj (k := 1)) ?_
      simp only [recvMsgSize]
      omega
    · rw [grown]
      refine ⟨_, recvUc_padded _ _ _ big parent' (by omega) (by omega), ?_⟩
      refine Iff.trans padded_inj ?_
      simp only [List.length_append, List.length_singleton, recvMsgSize]
      omega

/-- The message of node 2 does not pass node 3 unchanged. -/
theorem relay_transparent_iff_oneRelay :
    ∃ frame, sendUnicastData 128 (fun _ => 0) ⟨2, 0⟩ ⟨3, 0⟩ = some frame ∧
      ¬ HandsOn 128 [⟨fun _ => 0, ⟨1, 0⟩⟩] frame := by
  have sent : sendUnicastData 128 (fun _ => 0) ⟨2, 0⟩ ⟨3, 0⟩ =
      some ⟨⟨2, 0⟩, ⟨3, 0⟩, dataText ⟨2, 0⟩ ++ [0]⟩ := sendUnicastData_some (by decide) (by decide)
  have altered := (relay_transparent_iff (by decide) sent [⟨fun _ => 0, ⟨1, 0⟩⟩] (by simp [linkaddrNull])).1
  exact ⟨_, sent, fun handsOn => List.cons_ne_nil _ _ (altered.mp handsOn)⟩

end FirstVersion

end TreeRssi
