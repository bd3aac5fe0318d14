import SecureExchange.Library.Following
import SecureExchange.ResourceDiscipline

namespace SecureExchange.Ownership
open Handles Process

section Functions
variable {O : OpenSsl} {socket : Handle Call}

end Functions

/-- The receiver from where it has accepted a connection. -/
def serve (clientSocket : Handle Call) : Code Unit :=
  (do
    let _message ← (SecureReceiver.handleClient clientSocket).onThrow (.free clientSocket)
    .free clientSocket : Code Unit).ensure SecureReceiver.destroy

/-- The sender from where it is connected. -/
def transfer (sock : Handle Call) : Code Unit :=
  (do
    (SecureSender.performSecureTransfer sock).onThrow (.free sock)
    .free sock : Code Unit).ensure ECCCrypto.destroy

section Conversations
variable {O : OpenSsl} {socket : Handle Call}

end Conversations

end SecureExchange.Ownership
