import ImSingle.Kafka.DeliveryRun
import ImSingle.LoadTest.Packet

/-! What a client makes of the bytes that the nodes write to it in a run of the whole system. -/
namespace ImSingle.LoadTest
open Library Kafka Delivery
open BinaryReader (nearest)
open Connect (ChannelClient)

/-- A packet for a message, as the client has it. -/
theorem Packet.of_message (m : Proto.Message) (currentTimeMillis : Int64) :
    Packet.of ⟨.message,currentTimeMillis,some m,none⟩ =
      ⟨0,nearest currentTimeMillis.toInt,some (Message.of m),none⟩ := rfl

section published
variable {codecs : Codecs} {p : Published} {cid : String} {m : Proto.Message}

/-- In a channel with a name only messages are taken for messages. -/
theorem eq_message_of_parsed (hparsed : parsed codecs p = some m) (hcid : channelOf codecs p = cid)
    (hnamed : cid ≠ "") : ∃ uid, p = .message uid cid m := by
  cases p with
  | message uid c m' =>
    obtain rfl : c = cid := hcid
    have hsame : some m' = some m := (codecs.message.parseFrom_toByteArray m').symm.trans hparsed
    exact ⟨uid,by rw [Option.some.inj hsame]⟩
  | event nodeId event => exact absurd hcid.symm hnamed

end published

/-- From frame to display, in a run whose sessions have distinct ids, `cid` and `uid` and whose
events are taken: what a client in a channel with a name reads off a packet of less than 2^31
bytes that it is written is a message as a client in that channel sent it. -/
theorem shown_of_run (codecs : Codecs) {ops : List Op} (h : (machine codecs).Meets Guard ops)
    {push : Push} (hpush : push ∈ ((machine codecs).after ops).pushed)
    {client : ChannelClient} {packet : Proto.Packet} (hwrite : (client,packet) ∈ push.writes)
    (hsize : packet.toByteArray.length < 2^31) {cid : String}
    (hcid : client.handshakeData.first "cid" = some cid) (hnamed : cid ≠ "") :
    ∃ uid m, ∃ currentTimeMillis : Int64,
      ((machine codecs).after ops).published[push.serial]? = some (.message uid cid m) ∧
      (∃ n, ∃ sender ∈ (((machine codecs).after ops).nodes n).created,
        sender.handshakeData.first "uid" = some uid ∧
          sender.handshakeData.first "cid" = some cid) ∧
      Packet.deserializeBinary packet.toByteArray =
        some ⟨0,nearest currentTimeMillis.toInt,some (Message.of m),none⟩ := by
  have hinv := inv_after h
  obtain ⟨p,m,currentTimeMillis,receivers,hp,hm,hwrites,-,hto,-⟩ := (hinv.sound push hpush).writes
  rw [hwrites] at hwrite
  obtain ⟨receiver,hreceiver,heq⟩ := List.mem_map.mp hwrite
  obtain ⟨rfl,rfl⟩ := Prod.mk.inj heq
  have hchannel : channelOf codecs p = cid :=
    Option.some.inj ((hto receiver hreceiver).2.symm.trans hcid)
  obtain ⟨uid,rfl⟩ := eq_message_of_parsed hm hchannel hnamed
  have hread := Packet.deserializeBinary_encode
    (Packet.readable_fields _ (Nat.lt_trans hsize (by decide)))
  rw [Packet.foldl_fields,Packet.of_message] at hread
  exact ⟨uid,m,currentTimeMillis,hp,hinv.fromMember _ (List.mem_of_getElem? hp),hread⟩

theorem shown_of_run_firstMessage :
    let s := (machine protoCodecs).after (firstMessage ++ [.consume 1,.push "1" 0 0])
    s.pushed.length = 1 ∧ ∀ push ∈ s.pushed, ∀ x ∈ push.writes, ∃ uid m,
      s.published[push.serial]? = some (.message uid "c" m) ∧
        ∃ time, Packet.deserializeBinary x.2.toByteArray =
          some ⟨0,time,some (Message.of m),none⟩ := by
  refine ⟨by decide,fun push hpush x hx => ?_⟩
  have hsize : x.2.toByteArray.length < 2^31 := by
    revert push x
    decide
  have hcid : x.1.handshakeData.first "cid" = some "c" := by
    revert push x
    decide
  obtain ⟨uid,m,time,hp,-,hread⟩ :=
    shown_of_run protoCodecs (by decide) hpush hx hsize hcid (by decide)
  exact ⟨uid,m,hp,nearest time.toInt,hread⟩

end ImSingle.LoadTest
