import GaussMatrix.Library.Text

/-! # Core Matrix event types -/

namespace GaussMatrix.Api.Events

open Library

def roomCreate : Str := "m.room.create"
def roomMember : Str := "m.room.member"
def roomPowerLevels : Str := "m.room.power_levels"
def roomJoinRules : Str := "m.room.join_rules"
def roomName : Str := "m.room.name"
def roomTopic : Str := "m.room.topic"
def roomRedaction : Str := "m.room.redaction"
def roomThirdPartyInvite : Str := "m.room.third_party_invite"

/-! ## The types are distinct -/

@[simp] theorem roomCreate_ne :
    roomCreate ≠ roomMember ∧ roomCreate ≠ roomPowerLevels ∧ roomCreate ≠ roomJoinRules ∧
      roomCreate ≠ roomName ∧ roomCreate ≠ roomTopic ∧ roomCreate ≠ roomRedaction ∧ roomCreate ≠
      roomThirdPartyInvite := by
  decide

@[simp] theorem roomMember_ne :
    roomMember ≠ roomCreate ∧ roomMember ≠ roomPowerLevels ∧ roomMember ≠ roomJoinRules ∧
      roomMember ≠ roomName ∧ roomMember ≠ roomTopic ∧ roomMember ≠ roomRedaction ∧ roomMember ≠
      roomThirdPartyInvite := by
  decide

@[simp] theorem roomPowerLevels_ne :
    roomPowerLevels ≠ roomCreate ∧ roomPowerLevels ≠ roomMember ∧ roomPowerLevels ≠
      roomJoinRules ∧ roomPowerLevels ≠ roomName ∧ roomPowerLevels ≠ roomTopic ∧ roomPowerLevels
      ≠ roomRedaction ∧ roomPowerLevels ≠ roomThirdPartyInvite := by
  decide

@[simp] theorem roomJoinRules_ne :
    roomJoinRules ≠ roomCreate ∧ roomJoinRules ≠ roomMember ∧ roomJoinRules ≠ roomPowerLevels ∧
      roomJoinRules ≠ roomName ∧ roomJoinRules ≠ roomTopic ∧ roomJoinRules ≠ roomRedaction ∧
      roomJoinRules ≠ roomThirdPartyInvite := by
  decide

@[simp] theorem roomRedaction_ne :
    roomRedaction ≠ roomCreate ∧ roomRedaction ≠ roomMember ∧ roomRedaction ≠ roomPowerLevels ∧
      roomRedaction ≠ roomJoinRules ∧ roomRedaction ≠ roomName ∧ roomRedaction ≠ roomTopic ∧
      roomRedaction ≠ roomThirdPartyInvite := by
  decide

@[simp] theorem roomThirdPartyInvite_ne :
    roomThirdPartyInvite ≠ roomCreate ∧ roomThirdPartyInvite ≠ roomMember ∧ roomThirdPartyInvite
      ≠ roomPowerLevels ∧ roomThirdPartyInvite ≠ roomJoinRules ∧ roomThirdPartyInvite ≠ roomName
      ∧ roomThirdPartyInvite ≠ roomTopic ∧ roomThirdPartyInvite ≠ roomRedaction := by
  decide

end GaussMatrix.Api.Events
