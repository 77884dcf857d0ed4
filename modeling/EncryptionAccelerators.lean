import EncryptionAccelerators.RoutingProgress
import EncryptionAccelerators.EncryptionPath
import EncryptionAccelerators.DesRoundTrip
import EncryptionAccelerators.DesKeySchedule
import EncryptionAccelerators.AesKeySchedule
import EncryptionAccelerators.KeyProvisioning
import EncryptionAccelerators.KeyHandover
import EncryptionAccelerators.SdMode
import EncryptionAccelerators.Packetizing
import EncryptionAccelerators.Classification
import EncryptionAccelerators.Padding
import EncryptionAccelerators.HeaderChecksum
import EncryptionAccelerators.Icmp
import EncryptionAccelerators.ReturnAddress
import EncryptionAccelerators.IcmpBounds
import EncryptionAccelerators.IcmpReplies
import EncryptionAccelerators.Arp
import EncryptionAccelerators.ParserTruncation
import EncryptionAccelerators.AesInverse
import EncryptionAccelerators.KeyTableMemory
import EncryptionAccelerators.DesFiles
import EncryptionAccelerators.DesComplement
import EncryptionAccelerators.SdTermination
import EncryptionAccelerators.HeaderCodecs
import EncryptionAccelerators.RequestTermination
import EncryptionAccelerators.DeviceReflection
import EncryptionAccelerators.DeviceRoundTrip
import EncryptionAccelerators.KeyProjection
